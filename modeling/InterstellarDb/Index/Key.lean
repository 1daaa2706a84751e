import Mathlib.Data.Fin.Basic
import InterstellarDb.Foundations.BigEndian

/-!
# Keys

A data key is 20 bytes, three big-endian fields: the macro epoch (4 bytes), the Morton code
(8 bytes) and the nanosecond offset in the epoch (8 bytes). A key is determined by its fields
(`Key.ext_fields`), and keys sort in byte order as the triples of their fields
(`Key.compare_bytes`, `Key.toNat_eq`). A seal key is 6 bytes, `m!` and the epoch.
-/

namespace InterstellarDb

open BigEndian

/-- A macro epoch, `u32`. -/
abbrev Epoch := Fin (2 ^ 32)

instance neZero_two_pow_32 : NeZero (2 ^ 32 : ℕ) := ⟨by norm_num⟩

instance transCmp_epoch : Std.TransCmp (compare : Epoch → Epoch → Ordering) := inferInstance

/-- A data key, `[u8; 20]`. -/
@[ext] structure Key where
  bytes : Bytes
  length_bytes : bytes.length = 20
  deriving DecidableEq

namespace Key

/-- `key[0..4]`. -/
def epoch (k : Key) : Epoch :=
  ⟨ofBytes (k.bytes.take 4), by
    have := ofBytes_lt (k.bytes.take 4)
    rw [List.length_take, k.length_bytes] at this
    exact this⟩

/-- `key[4..12]`. -/
def morton (k : Key) : ℕ := ofBytes ((k.bytes.drop 4).take 8)

/-- `key[12..20]`. -/
def offset (k : Key) : ℕ := ofBytes (k.bytes.drop 12)

/-- The key with the given fields. -/
def ofFields (e : Epoch) (m o : ℕ) : Key :=
  ⟨toBytes 4 e ++ (toBytes 8 m ++ toBytes 8 o), by simp⟩

theorem morton_lt (k : Key) : k.morton < 2 ^ 64 := by
  have := ofBytes_lt ((k.bytes.drop 4).take 8)
  rwa [List.length_take, List.length_drop, k.length_bytes] at this

theorem offset_lt (k : Key) : k.offset < 2 ^ 64 := by
  have := ofBytes_lt (k.bytes.drop 12)
  rwa [List.length_drop, k.length_bytes] at this

@[simp] theorem epoch_ofFields (e : Epoch) (m o : ℕ) : (ofFields e m o).epoch = e := by
  ext
  simp only [epoch, ofFields]
  rw [List.take_left' (by simp), ofBytes_toBytes_of_lt e.isLt]

theorem morton_ofFields (e : Epoch) (m o : ℕ) : (ofFields e m o).morton = m % 2 ^ 64 := by
  simp only [morton, ofFields]
  rw [List.drop_left' (by simp), List.take_left' (by simp), ofBytes_toBytes]
  norm_num

theorem offset_ofFields (e : Epoch) (m o : ℕ) : (ofFields e m o).offset = o % 2 ^ 64 := by
  simp only [offset, ofFields]
  rw [← List.append_assoc, List.drop_left' (by simp), ofBytes_toBytes]
  norm_num

theorem bytes_eq (k : Key) :
    k.bytes = k.bytes.take 4 ++ ((k.bytes.drop 4).take 8 ++ k.bytes.drop 12) := by
  have : k.bytes.drop 12 = (k.bytes.drop 4).drop 8 := by rw [List.drop_drop]
  rw [this, List.take_append_drop, List.take_append_drop]

/-- The number that the 20 bytes of a key denote. -/
def toNat (k : Key) : ℕ := ofBytes k.bytes

theorem toNat_eq (k : Key) : k.toNat = k.epoch.val * 2 ^ 128 + k.morton * 2 ^ 64 + k.offset := by
  have h₁ : ((k.bytes.drop 4).take 8).length = 8 := by simp [k.length_bytes]
  have h₂ : (k.bytes.drop 12).length = 8 := by simp [k.length_bytes]
  rw [toNat, k.bytes_eq, ofBytes_append, ofBytes_append, List.length_append, h₁, h₂]
  simp only [epoch, morton, offset]
  norm_num [add_assoc]

theorem toNat_injective : Function.Injective toNat := fun k k' h =>
  Key.ext (ofBytes_inj (k.length_bytes.trans k'.length_bytes.symm) h)

/-- A key is determined by its three fields. -/
theorem ext_fields {k k' : Key} (he : k.epoch = k'.epoch) (hm : k.morton = k'.morton)
    (ho : k.offset = k'.offset) : k = k' :=
  toNat_injective (by rw [toNat_eq, toNat_eq, he, hm, ho])

/-- **Keys sort as their numbers.** -/
theorem compare_bytes (k k' : Key) : compare k.bytes k'.bytes = compare k.toNat k'.toNat :=
  compare_eq_compare_ofBytes (k.length_bytes.trans k'.length_bytes.symm)

/-- The keys before the end key padded by more bytes are those up to the end key. -/
theorem compare_bytes_append_eq_lt (k k' : Key) {t : Bytes} (ht : t ≠ []) :
    compare k.bytes (k'.bytes ++ t) = .lt ↔ k.toNat ≤ k'.toNat :=
  compare_append_eq_lt (k.length_bytes.trans k'.length_bytes.symm) ht

end Key

/-- `split_key`: the epoch and the Morton code of a key. -/
def splitKey (key : Key) : Epoch × Fin (2 ^ 64) := (key.epoch, ⟨key.morton, key.morton_lt⟩)

/-- `key_epoch`. -/
def keyEpoch (key : Key) : Epoch := key.epoch

/-- `<[u8; 20]>::try_from`: a byte string of 20 bytes is a key. -/
def Key.tryFrom (b : Bytes) : Option Key :=
  if h : b.length = 20 then some ⟨b, h⟩ else none

@[simp] theorem Key.tryFrom_bytes (k : Key) : Key.tryFrom k.bytes = some k := by
  simp [Key.tryFrom, k.length_bytes]

theorem Key.tryFrom_eq_some {b : Bytes} {k : Key} : Key.tryFrom b = some k ↔ b = k.bytes := by
  constructor
  · intro h
    rw [Key.tryFrom] at h
    split at h
    · rw [← Option.some.inj h]
    · cases h
  · rintro rfl
    exact k.tryFrom_bytes

/-! ## Seal keys -/

/-- `SEAL_KEY_PREFIX`, the bytes of `m!`. -/
def sealKeyPrefix : Bytes := [0x6d, 0x21]

/-- `seal_key`: the 6-byte key of the seal record of an epoch. -/
def sealKey (epoch : Epoch) : Bytes := sealKeyPrefix ++ toBytes 4 epoch

@[simp] theorem length_sealKey (e : Epoch) : (sealKey e).length = 6 := by
  simp [sealKey, sealKeyPrefix]

theorem sealKey_injective : Function.Injective sealKey := fun e e' h =>
  Fin.ext (toBytes_injOn e.isLt e'.isLt (List.append_cancel_left h))

theorem sealKey_ne_bytes (e : Epoch) (k : Key) : sealKey e ≠ k.bytes := fun h => by
  have := congrArg List.length h
  rw [length_sealKey, k.length_bytes] at this
  omega

end InterstellarDb
