import Mathlib.Algebra.Order.Floor.Semiring
import Mathlib.Data.Rat.Floor
import Mathlib.Tactic.Linarith
import Mathlib.Tactic.Positivity
import Mathlib.Tactic.FieldSimp
import InterstellarDb.Index.Morton

/-!
# The spatio-temporal indexer

Coordinates are exact rationals. A coordinate is quantised to 21 bits (`normalizeCoordinate`,
monotone, and inverse to `denormalizeCoordinate` on grid points), and a point in space and time
is one key: the macro epoch, the Morton code and the nanoseconds since the start of the epoch
(`generateKey`). On keys of instants that fit, decoding gives the instant back
(`decodeKey_generateKey`).
-/

namespace InterstellarDb

/-- `HybridSpatioTemporalIndexer`; `new` asserts that both parameters are positive. -/
structure HybridSpatioTemporalIndexer where
  maxRange : ℚ
  epochDuration : ℕ
  maxRange_pos : 0 < maxRange
  epochDuration_pos : 0 < epochDuration
  epochDuration_lt : epochDuration < 2 ^ 32

/-- The indexer of the source's tests, for concrete runs. -/
def testIndexer : HybridSpatioTemporalIndexer := ⟨1000, 3600, by norm_num, by norm_num, by norm_num⟩

/-- The greatest grid coordinate, `(1 << 21) - 1`. -/
def max21bit : ℕ := 2 ^ 21 - 1

/-- The nanoseconds of a second. -/
def nanosPerSec : ℕ := 1000000000

namespace HybridSpatioTemporalIndexer

variable (ix : HybridSpatioTemporalIndexer)

/-- `normalize_coordinate`: clamp to the range, scale to the grid, round half up. -/
def normalizeCoordinate (val : ℚ) : ℕ :=
  let clamped := max (-ix.maxRange) (min val ix.maxRange)
  let normalized := (clamped + ix.maxRange) / (2 * ix.maxRange)
  ⌊normalized * max21bit + 1 / 2⌋₊

/-- `denormalize_coordinate`. -/
def denormalizeCoordinate (val : ℕ) : ℚ :=
  let normalized : ℚ := val / max21bit
  normalized * 2 * ix.maxRange - ix.maxRange

/-- `generate_key`. The epoch is cut to `u32` and the offset to `u64`. -/
def generateKey (x y z : ℚ) (timestampSecs timestampNanos : ℕ) : Key :=
  let epochBucket := Fin.ofNat (2 ^ 32) (timestampSecs / ix.epochDuration)
  let nanoOffset := timestampSecs % ix.epochDuration * nanosPerSec + timestampNanos
  let spatialCode := encode3dMorton (ix.normalizeCoordinate x) (ix.normalizeCoordinate y)
    (ix.normalizeCoordinate z)
  .ofFields epochBucket spatialCode nanoOffset

/-- The nanoseconds since the epoch 0 that a key denotes, in `u64`. -/
def totalNanos (key : Key) : ℕ :=
  (key.epoch * ix.epochDuration * nanosPerSec + key.offset) % 2 ^ 64

/-- `decode_key`: the position, the second and the nanoseconds in the second. -/
def decodeKey (key : Key) : ℚ × ℚ × ℚ × ℕ × ℕ :=
  let (nx, ny, nz) := decode3dMorton key.morton
  (ix.denormalizeCoordinate nx, ix.denormalizeCoordinate ny, ix.denormalizeCoordinate nz,
    ix.totalNanos key / nanosPerSec, ix.totalNanos key % nanosPerSec)

/-! ## Quantisation -/

variable {ix}

theorem normalizeCoordinate_le (val : ℚ) : ix.normalizeCoordinate val ≤ max21bit := by
  have hR := ix.maxRange_pos
  have hclamp : max (-ix.maxRange) (min val ix.maxRange) ≤ ix.maxRange :=
    max_le (by linarith) (min_le_right _ _)
  have hone : (max (-ix.maxRange) (min val ix.maxRange) + ix.maxRange) / (2 * ix.maxRange) ≤ 1 := by
    rw [div_le_one (by positivity)]
    linarith
  have hM : (0 : ℚ) ≤ max21bit := Nat.cast_nonneg _
  have hlt : (max (-ix.maxRange) (min val ix.maxRange) + ix.maxRange) / (2 * ix.maxRange) *
      max21bit + 1 / 2 < ((max21bit + 1 : ℕ) : ℚ) := by
    have := mul_le_mul_of_nonneg_right hone hM
    push_cast
    linarith
  exact Nat.lt_succ_iff.1 ((Nat.floor_lt' (Nat.succ_ne_zero _)).2 hlt)

theorem normalizeCoordinate_lt (val : ℚ) : ix.normalizeCoordinate val < 2 ^ 21 :=
  (normalizeCoordinate_le val).trans_lt (by norm_num [max21bit])

/-- Quantisation is monotone. -/
theorem normalizeCoordinate_mono (ix : HybridSpatioTemporalIndexer) {v w : ℚ} (h : v ≤ w) :
    ix.normalizeCoordinate v ≤ ix.normalizeCoordinate w := by
  have hR := ix.maxRange_pos
  unfold normalizeCoordinate
  apply Nat.floor_mono
  have hclamp : max (-ix.maxRange) (min v ix.maxRange) ≤
      max (-ix.maxRange) (min w ix.maxRange) := max_le_max le_rfl (min_le_min h le_rfl)
  gcongr

/-- Grid points are fixed by quantisation. -/
theorem normalizeCoordinate_denormalizeCoordinate {n : ℕ} (hn : n ≤ max21bit) :
    ix.normalizeCoordinate (ix.denormalizeCoordinate n) = n := by
  have hR := ix.maxRange_pos
  have hM : (0 : ℚ) < max21bit := by norm_num [max21bit]
  have hn' : (n : ℚ) ≤ max21bit := by exact_mod_cast hn
  have h₀ : (0 : ℚ) ≤ n / max21bit := by positivity
  have h₁ : (n : ℚ) / max21bit ≤ 1 := (div_le_one hM).2 hn'
  have hlow : -ix.maxRange ≤ ix.denormalizeCoordinate n := by
    have := mul_nonneg h₀ hR.le
    dsimp only [denormalizeCoordinate]
    linarith
  have hup : ix.denormalizeCoordinate n ≤ ix.maxRange := by
    have := mul_le_mul_of_nonneg_right h₁ hR.le
    dsimp only [denormalizeCoordinate]
    linarith
  have hval : (max (-ix.maxRange) (min (ix.denormalizeCoordinate n) ix.maxRange) + ix.maxRange) /
      (2 * ix.maxRange) * max21bit = n := by
    rw [min_eq_left hup, max_eq_right hlow]
    dsimp only [denormalizeCoordinate]
    field_simp
    ring
  unfold normalizeCoordinate
  dsimp only
  rw [hval, Nat.floor_eq_iff (by positivity)]
  constructor
  · linarith
  · linarith

/-! ## Keys -/

section GenerateKey

variable {x y z : ℚ} {secs nanos : ℕ}

theorem morton_generateKey :
    (ix.generateKey x y z secs nanos).morton = encode3dMorton (ix.normalizeCoordinate x)
      (ix.normalizeCoordinate y) (ix.normalizeCoordinate z) := by
  have := encode3dMorton_lt (ix.normalizeCoordinate x) (ix.normalizeCoordinate y)
    (ix.normalizeCoordinate z)
  rw [generateKey, Key.morton_ofFields]
  exact Nat.mod_eq_of_lt (by omega)

theorem epoch_generateKey_mod :
    ((ix.generateKey x y z secs nanos).epoch : ℕ) = secs / ix.epochDuration % 2 ^ 32 := by
  rw [generateKey, Key.epoch_ofFields]
  rfl

theorem epoch_generateKey (h : secs / ix.epochDuration < 2 ^ 32) :
    ((ix.generateKey x y z secs nanos).epoch : ℕ) = secs / ix.epochDuration := by
  rw [epoch_generateKey_mod, Nat.mod_eq_of_lt h]

theorem offset_generateKey_mod :
    (ix.generateKey x y z secs nanos).offset =
      (secs % ix.epochDuration * nanosPerSec + nanos) % 2 ^ 64 := by
  rw [generateKey, Key.offset_ofFields]

theorem offset_generateKey (hn : nanos < nanosPerSec) :
    (ix.generateKey x y z secs nanos).offset =
      secs % ix.epochDuration * nanosPerSec + nanos := by
  have hd := ix.epochDuration_lt
  have hlt := Nat.mod_lt secs ix.epochDuration_pos
  rw [offset_generateKey_mod]
  apply Nat.mod_eq_of_lt
  unfold nanosPerSec at *
  omega

theorem totalNanos_generateKey (hn : nanos < nanosPerSec)
    (he : secs / ix.epochDuration < 2 ^ 32) (ht : secs * nanosPerSec + nanos < 2 ^ 64) :
    ix.totalNanos (ix.generateKey x y z secs nanos) = secs * nanosPerSec + nanos := by
  have hsum : secs / ix.epochDuration * ix.epochDuration * nanosPerSec +
      (secs % ix.epochDuration * nanosPerSec + nanos) = secs * nanosPerSec + nanos := by
    rw [← add_assoc, ← add_mul, Nat.div_add_mod']
  rw [totalNanos, epoch_generateKey he, offset_generateKey hn, hsum, Nat.mod_eq_of_lt ht]

/-- **Decoding a generated key** gives the grid point and the instant. -/
theorem decodeKey_generateKey (hn : nanos < nanosPerSec)
    (he : secs / ix.epochDuration < 2 ^ 32) (ht : secs * nanosPerSec + nanos < 2 ^ 64) :
    ix.decodeKey (ix.generateKey x y z secs nanos) =
      (ix.denormalizeCoordinate (ix.normalizeCoordinate x),
        ix.denormalizeCoordinate (ix.normalizeCoordinate y),
        ix.denormalizeCoordinate (ix.normalizeCoordinate z), secs, nanos) := by
  have hdiv : (secs * nanosPerSec + nanos) / nanosPerSec = secs := by
    unfold nanosPerSec at *
    omega
  have hmod : (secs * nanosPerSec + nanos) % nanosPerSec = nanos := by
    unfold nanosPerSec at *
    omega
  rw [decodeKey, morton_generateKey, decode3dMorton_encode3dMorton (normalizeCoordinate_lt x)
    (normalizeCoordinate_lt y) (normalizeCoordinate_lt z), totalNanos_generateKey hn he ht, hdiv,
    hmod]

end GenerateKey

end HybridSpatioTemporalIndexer

end InterstellarDb
