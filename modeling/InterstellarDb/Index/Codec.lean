import InterstellarDb.Foundations.Checked
import InterstellarDb.Index.Indexer

/-!
# The key codec

On instants that fit, `decode_key` gives back the second and the nanoseconds exactly and each
coordinate up to half a grid cell, and keying the decoded observation gives the same key
(`decodeKey_roundtrip`).

Off that domain the 64-bit arithmetic of the codec wraps, or the epoch is cut to 32 bits. The
computations with every step checked (`checkedGenerateKey`, `checkedDecodeKey`) say where:
`keepsInstant_iff` is the exact condition under which a timestamp survives.
-/

namespace InterstellarDb

namespace HybridSpatioTemporalIndexer

variable (ix : HybridSpatioTemporalIndexer)

/-- A coordinate clamped to the range of the indexer. -/
def clampCoordinate (val : ℚ) : ℚ := max (-ix.maxRange) (min val ix.maxRange)

/-- The greatest distance of a coordinate in range from its grid point. -/
def halfCell : ℚ := ix.maxRange / (2 ^ 21 - 1)

/-- `generate_key` with every step of its unsigned arithmetic checked. The cast of the epoch to
`u32` is no such step. -/
def checkedGenerateKey (x y z : ℚ) (timestampSecs timestampNanos : ℕ) : Option Key := do
  let epochBucket : Epoch := Fin.ofNat (2 ^ 32) (timestampSecs / ix.epochDuration)
  let nanoOffset ← Checked.add 64
    (← Checked.mul 64 (timestampSecs % ix.epochDuration) nanosPerSec) timestampNanos
  let spatialCode := encode3dMorton (ix.normalizeCoordinate x) (ix.normalizeCoordinate y)
    (ix.normalizeCoordinate z)
  return .ofFields epochBucket spatialCode nanoOffset

/-- `decode_key` with every step of its unsigned arithmetic checked. -/
def checkedDecodeKey (key : Key) : Option (ℚ × ℚ × ℚ × ℕ × ℕ) := do
  let (nx, ny, nz) := decode3dMorton key.morton
  let totalNanos ← Checked.add 64
    (← Checked.mul 64 (← Checked.mul 64 key.epoch ix.epochDuration) nanosPerSec) key.offset
  return (ix.denormalizeCoordinate nx, ix.denormalizeCoordinate ny, ix.denormalizeCoordinate nz,
    totalNanos / nanosPerSec, totalNanos % nanosPerSec)

variable {ix} {x y z : ℚ} {secs nanos : ℕ}

/-! ## Quantisation error -/

/-- Rounding half up moves a number by at most a half. -/
theorem abs_floor_add_half_sub_le {v : ℚ} (hv : 0 ≤ v) : |(⌊v + 1 / 2⌋₊ : ℚ) - v| ≤ 1 / 2 := by
  have hle := Nat.floor_le (show 0 ≤ v + 1 / 2 by linarith)
  have hlt := Nat.lt_floor_add_one (v + 1 / 2)
  rw [abs_le]
  constructor
  · linarith
  · linarith

/-- **A coordinate is decoded up to half a grid cell.** -/
theorem abs_denormalizeCoordinate_sub_le (val : ℚ) :
    |ix.denormalizeCoordinate (ix.normalizeCoordinate val) - ix.clampCoordinate val| ≤
      ix.halfCell := by
  have hR := ix.maxRange_pos
  set c := ix.clampCoordinate val with hc
  have hlow : -ix.maxRange ≤ c := le_max_left _ _
  have hM : (max21bit : ℚ) = 2 ^ 21 - 1 := by norm_num [max21bit]
  have hMpos : (0 : ℚ) < max21bit := by norm_num [max21bit]
  set v := (c + ix.maxRange) / (2 * ix.maxRange) * max21bit with hv
  have hv₀ : 0 ≤ v := by
    have : 0 ≤ c + ix.maxRange := by linarith
    positivity
  have hnorm : ix.normalizeCoordinate val = ⌊v + 1 / 2⌋₊ := rfl
  have herr := abs_floor_add_half_sub_le hv₀
  rw [← hnorm] at herr
  -- the distance on the grid, scaled by the width of a grid cell
  have hscale : ix.denormalizeCoordinate (ix.normalizeCoordinate val) - c =
      ((ix.normalizeCoordinate val : ℚ) - v) * (2 * ix.maxRange / max21bit) := by
    rw [hv, denormalizeCoordinate]
    field_simp
    ring
  have hcell : 0 ≤ 2 * ix.maxRange / max21bit := by positivity
  calc |ix.denormalizeCoordinate (ix.normalizeCoordinate val) - c|
      = |(ix.normalizeCoordinate val : ℚ) - v| * (2 * ix.maxRange / max21bit) := by
        rw [hscale, abs_mul, abs_of_nonneg hcell]
    _ ≤ 1 / 2 * (2 * ix.maxRange / max21bit) := mul_le_mul_of_nonneg_right herr hcell
    _ = ix.halfCell := by
        rw [halfCell, hM]
        ring

/-- Keying decoded coordinates gives the same key. -/
theorem generateKey_denormalizeCoordinate :
    ix.generateKey (ix.denormalizeCoordinate (ix.normalizeCoordinate x))
      (ix.denormalizeCoordinate (ix.normalizeCoordinate y))
      (ix.denormalizeCoordinate (ix.normalizeCoordinate z)) secs nanos =
    ix.generateKey x y z secs nanos := by
  simp only [generateKey,
    normalizeCoordinate_denormalizeCoordinate (normalizeCoordinate_le _)]

/-- **The round trip of the key codec.** On instants that fit, decoding a key gives the second and
the nanoseconds back and each coordinate up to half a grid cell from the clamped one, and keying
what was decoded gives the key again. -/
theorem decodeKey_roundtrip (ix : HybridSpatioTemporalIndexer) (x y z : ℚ) {secs nanos : ℕ}
    (hn : nanos < nanosPerSec) (he : secs / ix.epochDuration < 2 ^ 32)
    (ht : secs * nanosPerSec + nanos < 2 ^ 64) :
    ∃ x' y' z', ix.decodeKey (ix.generateKey x y z secs nanos) = (x', y', z', secs, nanos) ∧
      |x' - ix.clampCoordinate x| ≤ ix.halfCell ∧ |y' - ix.clampCoordinate y| ≤ ix.halfCell ∧
      |z' - ix.clampCoordinate z| ≤ ix.halfCell ∧
      ix.generateKey x' y' z' secs nanos = ix.generateKey x y z secs nanos :=
  ⟨_, _, _, decodeKey_generateKey hn he ht, abs_denormalizeCoordinate_sub_le x,
    abs_denormalizeCoordinate_sub_le y, abs_denormalizeCoordinate_sub_le z,
    generateKey_denormalizeCoordinate⟩

theorem decodeKey_roundtrip_sample :
    ∃ x' y' z', testIndexer.decodeKey (testIndexer.generateKey 12 (-5) 2000 7261 5) =
      (x', y', z', 7261, 5) ∧ |x' - testIndexer.clampCoordinate 12| ≤ testIndexer.halfCell := by
  have hn : 5 < nanosPerSec := by norm_num [nanosPerSec]
  have he : 7261 / testIndexer.epochDuration < 2 ^ 32 := by norm_num [testIndexer]
  have ht : 7261 * nanosPerSec + 5 < 2 ^ 64 := by norm_num [nanosPerSec]
  obtain ⟨x', y', z', h, hx, -⟩ := decodeKey_roundtrip testIndexer 12 (-5) 2000 hn he ht
  exact ⟨x', y', z', h, hx⟩

/-! ## Instants that survive -/

/-- An instant in nanoseconds. -/
def instant (secs nanos : ℕ) : ℕ := secs * nanosPerSec + nanos

/-- Computing the key and decoding it overflow nowhere, the decoded instant is the given one, and
the epoch of the key is that of the second of the instant. -/
def KeepsInstant (ix : HybridSpatioTemporalIndexer) (x y z : ℚ) (secs nanos : ℕ) : Prop :=
  ∃ k, ix.checkedGenerateKey x y z secs nanos = some k ∧
    ∃ x' y' z' secs' nanos', ix.checkedDecodeKey k = some (x', y', z', secs', nanos') ∧
      instant secs' nanos' = instant secs nanos ∧
      k.epoch.val = instant secs nanos / nanosPerSec / ix.epochDuration

theorem nanosPerSec_pos : 0 < nanosPerSec := by norm_num [nanosPerSec]

theorem instant_div (secs nanos : ℕ) :
    instant secs nanos / nanosPerSec = secs + nanos / nanosPerSec := by
  rw [instant, add_comm, Nat.add_mul_div_right _ _ nanosPerSec_pos, add_comm]

theorem instant_div_mod (t : ℕ) : instant (t / nanosPerSec) (t % nanosPerSec) = t :=
  Nat.div_add_mod' t nanosPerSec

/-- An instant is the start of its epoch and the offset in the epoch. -/
theorem instant_eq (ix : HybridSpatioTemporalIndexer) (secs nanos : ℕ) :
    instant secs nanos = secs / ix.epochDuration * ix.epochDuration * nanosPerSec +
      (secs % ix.epochDuration * nanosPerSec + nanos) := by
  rw [instant, ← add_assoc, ← add_mul, Nat.div_add_mod']

/-- The epoch of the second of an instant, with the carry of the nanoseconds. -/
theorem instant_div_div (ix : HybridSpatioTemporalIndexer) (secs nanos : ℕ) :
    instant secs nanos / nanosPerSec / ix.epochDuration = secs / ix.epochDuration +
      (secs % ix.epochDuration + nanos / nanosPerSec) / ix.epochDuration := by
  have h := Nat.div_add_mod secs ix.epochDuration
  rw [instant_div]
  nth_rewrite 1 [← h]
  rw [add_assoc, Nat.mul_add_div ix.epochDuration_pos]

/-- Without overflow, `generate_key` gives its key. -/
theorem checkedGenerateKey_eq_some {k : Key} :
    ix.checkedGenerateKey x y z secs nanos = some k ↔
      secs % ix.epochDuration * nanosPerSec + nanos < 2 ^ 64 ∧
        ix.generateKey x y z secs nanos = k := by
  simp only [checkedGenerateKey, Option.bind_eq_bind, Option.bind_eq_some_iff, Checked.add_eq_some,
    Checked.mul_eq_some, Option.pure_def, Option.some.injEq]
  constructor
  · rintro ⟨_, ⟨-, rfl⟩, _, ⟨h, rfl⟩, rfl⟩
    exact ⟨h, rfl⟩
  · rintro ⟨h, rfl⟩
    exact ⟨_, ⟨by omega, rfl⟩, _, ⟨h, rfl⟩, rfl⟩

/-- Without overflow, `decode_key` gives the exact instant of the key. -/
theorem checkedDecodeKey_eq_some {k : Key} {r : ℚ × ℚ × ℚ × ℕ × ℕ} :
    ix.checkedDecodeKey k = some r ↔
      k.epoch * ix.epochDuration * nanosPerSec + k.offset < 2 ^ 64 ∧ ix.decodeKey k = r := by
  simp only [checkedDecodeKey, Option.bind_eq_bind, Option.bind_eq_some_iff, Checked.add_eq_some,
    Checked.mul_eq_some, Option.pure_def, Option.some.injEq]
  constructor
  · rintro ⟨_, ⟨-, rfl⟩, _, ⟨-, rfl⟩, _, ⟨h, rfl⟩, rfl⟩
    rw [decodeKey, totalNanos, Nat.mod_eq_of_lt h]
    exact ⟨h, rfl⟩
  · rintro ⟨h, rfl⟩
    have hpos := nanosPerSec_pos
    have hle := Nat.le_mul_of_pos_right (k.epoch.val * ix.epochDuration) hpos
    refine ⟨_, ⟨by omega, rfl⟩, _, ⟨by omega, rfl⟩, _, ⟨h, rfl⟩, ?_⟩
    rw [decodeKey, totalNanos, Nat.mod_eq_of_lt h]

/-- **When an instant survives**: its epoch fits into 32 bits and its nanoseconds into 64, and the
nanoseconds carry no second into the next epoch. -/
theorem keepsInstant_iff (x y z : ℚ) (secs nanos : ℕ) :
    KeepsInstant ix x y z secs nanos ↔
      secs / ix.epochDuration < 2 ^ 32 ∧ instant secs nanos < 2 ^ 64 ∧
        secs % ix.epochDuration + nanos / nanosPerSec < ix.epochDuration := by
  constructor
  · rintro ⟨k, hk, x', y', z', secs', nanos', hdec, hsame, he⟩
    obtain ⟨hgen, rfl⟩ := checkedGenerateKey_eq_some.1 hk
    obtain ⟨htotal, hdecode⟩ := checkedDecodeKey_eq_some.1 hdec
    simp only [decodeKey, totalNanos, Nat.mod_eq_of_lt htotal, Prod.mk.injEq] at hdecode
    obtain ⟨-, -, -, rfl, rfl⟩ := hdecode
    rw [instant_div_mod, epoch_generateKey_mod, offset_generateKey_mod, Nat.mod_eq_of_lt hgen,
      instant_eq ix, add_left_inj] at hsame
    have hfield : secs / ix.epochDuration % 2 ^ 32 = secs / ix.epochDuration :=
      Nat.eq_of_mul_eq_mul_right ix.epochDuration_pos
        (Nat.eq_of_mul_eq_mul_right nanosPerSec_pos hsame)
    refine ⟨?_, ?_, ?_⟩
    · rw [← hfield]
      exact Nat.mod_lt _ (by norm_num)
    · rw [epoch_generateKey_mod, offset_generateKey_mod, Nat.mod_eq_of_lt hgen, hfield,
        ← instant_eq] at htotal
      exact htotal
    · rw [epoch_generateKey_mod, hfield, instant_div_div] at he
      have hzero := Nat.left_eq_add.1 he
      exact (Nat.div_eq_zero_iff_lt ix.epochDuration_pos).1 hzero
  · rintro ⟨hbucket, hfits, hcarry⟩
    have hgen : secs % ix.epochDuration * nanosPerSec + nanos < 2 ^ 64 := by
      rw [instant_eq ix] at hfits
      omega
    have hkey : (ix.generateKey x y z secs nanos).epoch.val * ix.epochDuration * nanosPerSec +
        (ix.generateKey x y z secs nanos).offset = instant secs nanos := by
      rw [epoch_generateKey hbucket, offset_generateKey_mod, Nat.mod_eq_of_lt hgen, ← instant_eq]
    have htotal := hfits
    rw [← hkey] at htotal
    refine ⟨_, checkedGenerateKey_eq_some.2 ⟨hgen, rfl⟩, _, _, _, _, _,
      checkedDecodeKey_eq_some.2 ⟨htotal, rfl⟩, ?_, ?_⟩
    · rw [totalNanos, Nat.mod_eq_of_lt htotal, instant_div_mod, hkey]
    · rw [epoch_generateKey hbucket, instant_div_div, Nat.div_eq_of_lt hcarry, add_zero]

end HybridSpatioTemporalIndexer

end InterstellarDb
