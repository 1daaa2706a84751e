import Mathlib.Data.List.ProdSigma
import Mathlib.Order.Bounds.Defs
import InterstellarDb.Index.Window

/-!
# Fan-out of a query

At the depth that the planner chooses, the bounding box of a ball is at most one cell wide on each
axis (`normalizeCoordinate_add_le`), so the walk takes at most two steps an axis
(`length_axisSteps_le`) and a query meets between one and eight cells
(`fanout_calculateOptimalDepth`).
-/

namespace InterstellarDb

namespace HybridSpatioTemporalIndexer

variable {ix : HybridSpatioTemporalIndexer} {cx cy cz radius : ℚ}

/-! ## The depth -/

theorem fraction_eq (ix : HybridSpatioTemporalIndexer) (radius : ℚ) :
    radius * 2 / (ix.maxRange * 2) = radius / ix.maxRange :=
  mul_div_mul_right _ _ two_ne_zero

/-- The halvings that keep the range as wide as the ball are those up to the logarithm. -/
theorem two_pow_mul_le_iff (hpos : 0 < radius) (hlt : radius < ix.maxRange) (s : ℕ) :
    2 ^ s * radius ≤ ix.maxRange ↔
      s ≤ Nat.log 2 ⌊1 / (radius * 2 / (ix.maxRange * 2))⌋₊ := by
  rw [fraction_eq, one_div_div]
  have hone : 1 ≤ ix.maxRange / radius := (one_le_div hpos).2 hlt.le
  have hfloor : ⌊ix.maxRange / radius⌋₊ ≠ 0 := (Nat.floor_pos.2 hone).ne'
  rw [Nat.le_log_iff_pow_le (by norm_num) hfloor, Nat.le_floor_iff (by positivity),
    le_div_iff₀ hpos]
  push_cast
  rfl

/-- The depth from the greatest number of halvings that keep the range as wide as the ball. -/
theorem calculateOptimalDepth_of_isGreatest (hpos : 0 < radius) {s : ℕ}
    (hs : IsGreatest {t : ℕ | 2 ^ t * radius ≤ ix.maxRange} s) :
    ix.calculateOptimalDepth radius = max 1 (min s 21) * 3 := by
  have hR := ix.maxRange_pos
  unfold calculateOptimalDepth
  dsimp only
  by_cases h₁ : 1 ≤ radius * 2 / (ix.maxRange * 2)
  · rw [if_pos h₁]
    rw [fraction_eq, one_le_div hR] at h₁
    -- one halving already leaves less than the ball
    have hzero : s = 0 := by
      by_contra hne
      have hle : (2 : ℚ) ^ s * radius ≤ ix.maxRange := hs.1
      have htwo : (2 : ℚ) ^ 1 ≤ 2 ^ s := pow_le_pow_right₀ (by norm_num) (by omega)
      have := mul_le_mul_of_nonneg_right htwo hpos.le
      linarith
    subst hzero
    rfl
  · rw [if_neg h₁]
    rw [fraction_eq, one_le_div hR, not_le] at h₁
    have hne : radius * 2 / (ix.maxRange * 2) ≠ 0 := by positivity
    rw [if_neg hne]
    have hlog : Nat.log 2 ⌊1 / (radius * 2 / (ix.maxRange * 2))⌋₊ = s := by
      apply Nat.le_antisymm
      · exact hs.2 ((two_pow_mul_le_iff hpos h₁ _).2 le_rfl)
      · exact (two_pow_mul_le_iff hpos h₁ s).1 hs.1
    rw [hlog]

theorem calculateOptimalDepth_zero (ix : HybridSpatioTemporalIndexer) :
    ix.calculateOptimalDepth 0 = 63 := by
  unfold calculateOptimalDepth
  norm_num

/-- A cell of the chosen depth is as wide as the ball, unless the depth is the least. -/
theorem two_pow_axisBits_mul_le (ix : HybridSpatioTemporalIndexer) (hr : 0 ≤ radius) :
    ix.calculateOptimalDepth radius = 3 ∨
      2 ^ (ix.calculateOptimalDepth radius / 3) * radius ≤ ix.maxRange := by
  have hR := ix.maxRange_pos
  rcases hr.eq_or_lt with rfl | hpos
  · right
    linarith
  unfold calculateOptimalDepth
  dsimp only
  by_cases h₁ : 1 ≤ radius * 2 / (ix.maxRange * 2)
  · left
    rw [if_pos h₁]
  · have hne : radius * 2 / (ix.maxRange * 2) ≠ 0 := by positivity
    rw [if_neg h₁, if_neg hne, Nat.mul_div_cancel _ (by norm_num)]
    rw [fraction_eq, one_le_div hR, not_le] at h₁
    set s := Nat.log 2 ⌊1 / (radius * 2 / (ix.maxRange * 2))⌋₊ with hs
    by_cases hzero : s = 0
    · left
      rw [hzero]
      rfl
    · right
      apply (two_pow_mul_le_iff hpos h₁ _).2
      omega

/-! ## The width of the box -/

/-- Clamped to the range, the ends of the ball are no further apart than its width. -/
theorem clamp_add_le (ix : HybridSpatioTemporalIndexer) (hr : 0 ≤ radius) (c : ℚ) :
    max (-ix.maxRange) (min (c + radius) ix.maxRange) ≤
      max (-ix.maxRange) (min (c - radius) ix.maxRange) + 2 * radius := by
  have hR := ix.maxRange_pos
  set low := max (-ix.maxRange) (min (c - radius) ix.maxRange)
  have h₁ : -ix.maxRange ≤ low := le_max_left _ _
  have h₂ : min (c - radius) ix.maxRange ≤ low := le_max_right _ _
  apply max_le
  · linarith
  · rcases min_cases (c - radius) ix.maxRange with ⟨hmin, -⟩ | ⟨hmin, -⟩
    · have := min_le_left (c + radius) ix.maxRange
      linarith
    · have := min_le_right (c + radius) ix.maxRange
      linarith

/-- The ball takes one cell of the grid. -/
theorem gridWidth_le (hr : 0 ≤ radius) {k : ℕ} (hk : k ≤ 21)
    (h : 2 ^ k * radius ≤ ix.maxRange) : radius / ix.maxRange * max21bit ≤ 2 ^ (21 - k) := by
  have hR := ix.maxRange_pos
  have hpow : (2 : ℚ) ^ k * 2 ^ (21 - k) = 2 ^ 21 := by
    rw [← pow_add, Nat.add_sub_cancel' hk]
  have hfrac : 2 ^ k * (radius / ix.maxRange) ≤ 1 := by
    rw [← mul_div_assoc, div_le_one hR]
    exact h
  have hcast : (max21bit : ℚ) ≤ 2 ^ 21 := by norm_num [max21bit]
  have hnonneg : 0 ≤ radius / ix.maxRange := by positivity
  calc radius / ix.maxRange * max21bit ≤ radius / ix.maxRange * 2 ^ 21 := by gcongr
    _ = 2 ^ k * (radius / ix.maxRange) * 2 ^ (21 - k) := by rw [← hpow]; ring
    _ ≤ 1 * 2 ^ (21 - k) := by gcongr
    _ = 2 ^ (21 - k) := one_mul _

/-- **The box is at most one cell wide** when a cell is as wide as the ball. -/
theorem normalizeCoordinate_add_le (hr : 0 ≤ radius) {k : ℕ} (hk : k ≤ 21)
    (h : 2 ^ k * radius ≤ ix.maxRange) (c : ℚ) :
    ix.normalizeCoordinate (c + radius) ≤ ix.normalizeCoordinate (c - radius) + 2 ^ (21 - k) := by
  have hR := ix.maxRange_pos
  have hclamp := ix.clamp_add_le hr c
  have hwidth := gridWidth_le hr hk h
  set low := max (-ix.maxRange) (min (c - radius) ix.maxRange) with hlow
  have hnonneg : 0 ≤ (low + ix.maxRange) / (2 * ix.maxRange) * max21bit + 1 / 2 := by
    have h₁ : -ix.maxRange ≤ low := le_max_left _ _
    have h₂ : 0 ≤ low + ix.maxRange := by linarith
    positivity
  have hscale : (max (-ix.maxRange) (min (c + radius) ix.maxRange) + ix.maxRange) /
      (2 * ix.maxRange) * max21bit + 1 / 2 ≤
      (low + ix.maxRange) / (2 * ix.maxRange) * max21bit + 1 / 2 + ((2 ^ (21 - k) : ℕ) : ℚ) := by
    have hsplit : (low + 2 * radius + ix.maxRange) / (2 * ix.maxRange) =
        (low + ix.maxRange) / (2 * ix.maxRange) + radius / ix.maxRange := by
      field_simp
      ring
    have hdiv : (max (-ix.maxRange) (min (c + radius) ix.maxRange) + ix.maxRange) /
        (2 * ix.maxRange) ≤ (low + ix.maxRange) / (2 * ix.maxRange) + radius / ix.maxRange := by
      rw [← hsplit]
      gcongr
    have hmul := mul_le_mul_of_nonneg_right hdiv (Nat.cast_nonneg (α := ℚ) max21bit)
    push_cast
    linarith
  unfold normalizeCoordinate
  dsimp only
  rw [← Nat.floor_add_natCast hnonneg]
  exact Nat.floor_mono hscale

/-! ## Counting the cells -/

theorem length_gridSteps_le {max step fuel v n : ℕ} (h : max < v + n * step) :
    (gridSteps max step fuel v).length ≤ n := by
  induction fuel generalizing v n with
  | zero => exact Nat.zero_le _
  | succ fuel ih =>
    rw [gridSteps]
    by_cases hv : v ≤ max
    · cases n with
      | zero => omega
      | succ n =>
        have hsum : v + (n + 1) * step = v + step + n * step := by ring
        rw [if_pos hv, List.length_cons]
        apply Nat.succ_le_succ
        split_ifs
        · exact Nat.zero_le _
        · exact ih (hsum ▸ h)
    · rw [if_neg hv]
      exact Nat.zero_le _

/-- **The walk takes at most two steps an axis.** -/
theorem length_axisSteps_le (ix : HybridSpatioTemporalIndexer) (hr : 0 ≤ radius) (c : ℚ) :
    (ix.axisSteps c radius (21 - ix.calculateOptimalDepth radius / 3)).length ≤ 2 := by
  have hbits : ix.calculateOptimalDepth radius / 3 ≤ 21 := by
    have := ix.calculateOptimalDepth_le radius
    omega
  apply length_gridSteps_le
  simp only [Nat.shiftLeft_eq, Nat.shiftRight_eq_div_pow, Nat.one_mul]
  rcases ix.two_pow_axisBits_mul_le hr with hdepth | hwide
  · -- two cells of the least depth are the whole axis
    have hlt : ix.normalizeCoordinate (c + radius) < 2 ^ 21 := normalizeCoordinate_lt _
    rw [hdepth]
    exact Nat.lt_add_left _ (hlt.trans_eq (by norm_num))
  · have hwidth := ix.normalizeCoordinate_add_le hr hbits hwide c
    have hpos : 0 < 2 ^ (21 - ix.calculateOptimalDepth radius / 3) := Nat.two_pow_pos _
    have hsnap := Nat.lt_div_mul_add (a := ix.normalizeCoordinate (c - radius)) hpos
    generalize 2 ^ (21 - ix.calculateOptimalDepth radius / 3) = step at *
    generalize ix.normalizeCoordinate (c - radius) = nMin at *
    omega

theorem length_computeSpatialPrefixes_le (ix : HybridSpatioTemporalIndexer)
    (cx cy cz radius : ℚ) (depthBits : ℕ) :
    (ix.computeSpatialPrefixes cx cy cz radius depthBits).length ≤
      (ix.axisSteps cx radius (21 - depthBits / 3)).length *
        ((ix.axisSteps cy radius (21 - depthBits / 3)).length *
          (ix.axisSteps cz radius (21 - depthBits / 3)).length) := by
  set points := ix.axisSteps cx radius (21 - depthBits / 3) ×ˢ
    (ix.axisSteps cy radius (21 - depthBits / 3) ×ˢ
      ix.axisSteps cz radius (21 - depthBits / 3)) with hpoints
  have hsub : ix.computeSpatialPrefixes cx cy cz radius depthBits ⊆
      points.map fun n => prefixAt (encode3dMorton n.1 n.2.1 n.2.2) depthBits := by
    intro p hp
    obtain ⟨x, hx, y, hy, z, hz, rfl⟩ := mem_computeSpatialPrefixes_iff.1 hp
    refine List.mem_map.2 ⟨(x, y, z), ?_, rfl⟩
    exact List.mem_product.2 ⟨hx, List.mem_product.2 ⟨hy, hz⟩⟩
  have hlen := ((nodup_computeSpatialPrefixes ..).subperm hsub).length_le
  rwa [List.length_map, hpoints, List.length_product, List.length_product] at hlen

/-- A negative radius has the least depth. -/
theorem calculateOptimalDepth_of_neg (ix : HybridSpatioTemporalIndexer) (hr : radius < 0) :
    ix.calculateOptimalDepth radius = 3 := by
  have hneg : radius / ix.maxRange < 0 := div_neg_of_neg_of_pos hr ix.maxRange_pos
  have hfloor : ⌊1 / (radius / ix.maxRange)⌋₊ = 0 :=
    Nat.floor_of_nonpos (one_div_nonpos.2 hneg.le)
  unfold calculateOptimalDepth
  dsimp only
  rw [fraction_eq, if_neg (by linarith), if_neg hneg.ne, hfloor, Nat.log_zero_right]
  rfl

/-- A query meets at most eight cells, whatever its radius. -/
theorem length_optimalPrefixes_le (ix : HybridSpatioTemporalIndexer) (cx cy cz radius : ℚ) :
    (ix.computeSpatialPrefixes cx cy cz radius (ix.calculateOptimalDepth radius)).length ≤ 8 := by
  have haxis : ∀ c,
      (ix.axisSteps c radius (21 - ix.calculateOptimalDepth radius / 3)).length ≤ 2 := by
    intro c
    rcases lt_or_ge radius 0 with hneg | hr
    · -- two cells of the least depth are the whole axis
      have hlt : ix.normalizeCoordinate (c + radius) < 2 ^ 21 := normalizeCoordinate_lt _
      apply length_gridSteps_le
      rw [ix.calculateOptimalDepth_of_neg hneg]
      exact Nat.lt_add_left _ (hlt.trans_eq (by decide))
    · exact ix.length_axisSteps_le hr c
  calc _ ≤ _ := ix.length_computeSpatialPrefixes_le cx cy cz radius _
    _ ≤ 2 * (2 * 2) := Nat.mul_le_mul (haxis cx) (Nat.mul_le_mul (haxis cy) (haxis cz))
    _ = 8 := rfl

/-- **A query meets between one and eight cells**, at a depth that the range planner accepts. -/
theorem fanout_calculateOptimalDepth (ix : HybridSpatioTemporalIndexer) (cx cy cz : ℚ)
    (hr : 0 ≤ radius) :
    (∀ s, 0 < radius → IsGreatest {t : ℕ | 2 ^ t * radius ≤ ix.maxRange} s →
      ix.calculateOptimalDepth radius = max 1 (min s 21) * 3) ∧
    (radius = 0 → ix.calculateOptimalDepth radius = 21 * 3) ∧
    (3 ≤ ix.calculateOptimalDepth radius ∧ ix.calculateOptimalDepth radius ≤ 63 ∧
      ix.calculateOptimalDepth radius % 3 = 0) ∧
    1 ≤ (ix.computeSpatialPrefixes cx cy cz radius (ix.calculateOptimalDepth radius)).length ∧
      (ix.computeSpatialPrefixes cx cy cz radius (ix.calculateOptimalDepth radius)).length ≤ 8 := by
  have hmod := ix.calculateOptimalDepth_mod radius
  have hle := ix.calculateOptimalDepth_le radius
  refine ⟨fun s hpos hs => calculateOptimalDepth_of_isGreatest hpos hs, ?_,
    ⟨ix.three_le_calculateOptimalDepth radius, hle, hmod⟩, ?_, ?_⟩
  · rintro rfl
    exact ix.calculateOptimalDepth_zero
  · exact List.length_pos_of_ne_nil (computeSpatialPrefixes_ne_nil hr hmod hle)
  · exact ix.length_optimalPrefixes_le cx cy cz radius

/-- The corner of the range, where the box is clamped. -/
theorem fanout_corner :
    1 ≤ (testIndexer.computeSpatialPrefixes 1000 1000 1000 3
        (testIndexer.calculateOptimalDepth 3)).length ∧
      (testIndexer.computeSpatialPrefixes 1000 1000 1000 3
        (testIndexer.calculateOptimalDepth 3)).length ≤ 8 :=
  (fanout_calculateOptimalDepth testIndexer 1000 1000 1000 (show (0 : ℚ) ≤ 3 by norm_num)).2.2.2

end HybridSpatioTemporalIndexer

end InterstellarDb
