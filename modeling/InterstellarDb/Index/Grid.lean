import Mathlib.Tactic.NormNum
import InterstellarDb.Index.Morton

/-!
# The shape of a cell

The top bit of a Morton code is always zero, so the first `3 k` bits of the 64-bit code hold `k`
bits of `x` and of `y` and only `k - 1` bits of `z`. A cell is two grid steps of its depth high on
the last axis (`prefixAt_morton_iff`) and no cube (`prefixAt_morton_iff_sameCube`).
-/

namespace InterstellarDb

/-- A point of the grid, three coordinates of 21 bits. -/
@[ext] structure GridPoint where
  x : ℕ
  y : ℕ
  z : ℕ
  x_lt : x < 2 ^ 21
  y_lt : y < 2 ^ 21
  z_lt : z < 2 ^ 21

namespace GridPoint

/-- The Morton code of a point. -/
def morton (n : GridPoint) : ℕ := encode3dMorton n.x n.y n.z

/-- The points agree on each axis after dropping the low `21 - d / 3` bits. -/
structure SameCube (d : ℕ) (n n' : GridPoint) : Prop where
  x : n.x >>> (21 - d / 3) = n'.x >>> (21 - d / 3)
  y : n.y >>> (21 - d / 3) = n'.y >>> (21 - d / 3)
  z : n.z >>> (21 - d / 3) = n'.z >>> (21 - d / 3)

/-- The points lie in two cubes of depth `d` that share a cell: they agree on `x` and `y` above the
grid step, and on `z` they are on both sides of it but agree above the next bit. -/
structure StackedCubes (d : ℕ) (n n' : GridPoint) : Prop where
  x : n.x >>> (21 - d / 3) = n'.x >>> (21 - d / 3)
  y : n.y >>> (21 - d / 3) = n'.y >>> (21 - d / 3)
  z : n.z >>> (22 - d / 3) = n'.z >>> (22 - d / 3)
  z_ne : n.z >>> (21 - d / 3) ≠ n'.z >>> (21 - d / 3)

variable {d : ℕ}

/-! ## Prefixes by bits -/

/-- Codes have one prefix when they agree on the bits that the prefix keeps. -/
theorem prefixAt_eq_prefixAt_iff {m m' : ℕ} :
    prefixAt m d = prefixAt m' d ↔ ∀ j, 64 - d ≤ j → m.testBit j = m'.testBit j := by
  constructor
  · intro h j hj
    have hshift : m >>> (64 - d) = m' >>> (64 - d) := by
      have := congrArg (fun n => n >>> (64 - d)) h
      simpa [prefixAt, Nat.shiftLeft_shiftRight] using this
    exact shiftRight_testBit_congr hshift hj
  · intro h
    have hshift : m >>> (64 - d) = m' >>> (64 - d) := by
      refine Nat.eq_of_testBit_eq fun i => ?_
      rw [Nat.testBit_shiftRight, Nat.testBit_shiftRight]
      exact h _ (Nat.le_add_right _ _)
    rw [prefixAt, prefixAt, hshift]

/-- Coordinates of 21 bits agree after dropping low bits when they agree on the bits above. -/
theorem shiftRight_eq_iff {a b s : ℕ} (ha : a < 2 ^ 21) (hb : b < 2 ^ 21) :
    a >>> s = b >>> s ↔ ∀ i, s ≤ i → i < 21 → a.testBit i = b.testBit i := by
  constructor
  · intro h i hi _
    exact shiftRight_testBit_congr h hi
  · intro h
    refine Nat.eq_of_testBit_eq fun i => ?_
    rw [Nat.testBit_shiftRight, Nat.testBit_shiftRight]
    by_cases hi : s + i < 21
    · exact h _ (Nat.le_add_right _ _) hi
    · -- beyond the coordinates
      have hpow : 2 ^ 21 ≤ 2 ^ (s + i) := Nat.pow_le_pow_right (by norm_num) (Nat.not_lt.1 hi)
      rw [Nat.testBit_lt_two_pow (ha.trans_le hpow), Nat.testBit_lt_two_pow (hb.trans_le hpow)]

/-- **What a prefix keeps of a point**: all but the low `21 - d / 3` bits of `x` and `y`, and one
bit less of `z`. -/
theorem prefixAt_morton_iff (hd : d % 3 = 0) (h3 : 3 ≤ d) (hle : d ≤ 63) (n n' : GridPoint) :
    prefixAt n.morton d = prefixAt n'.morton d ↔
      n.x >>> (21 - d / 3) = n'.x >>> (21 - d / 3) ∧
        n.y >>> (21 - d / 3) = n'.y >>> (21 - d / 3) ∧
        n.z >>> (22 - d / 3) = n'.z >>> (22 - d / 3) := by
  rw [prefixAt_eq_prefixAt_iff, shiftRight_eq_iff n.x_lt n'.x_lt, shiftRight_eq_iff n.y_lt n'.y_lt,
    shiftRight_eq_iff n.z_lt n'.z_lt]
  simp only [morton, testBit_encode3dMorton]
  constructor
  · -- the three axes of a code are its bits by their remainder
    intro h
    refine ⟨fun i hi hlt => ?_, fun i hi hlt => ?_, fun i hi hlt => ?_⟩
    · have := h (3 * i + 2) (by omega)
      rw [decide_eq_true (by omega), Bool.true_and, Bool.true_and, mortonAxis, mortonAxis,
        if_pos (by omega), if_pos (by omega)] at this
      rwa [show (3 * i + 2) / 3 = i by omega] at this
    · have := h (3 * i + 1) (by omega)
      rw [decide_eq_true (by omega), Bool.true_and, Bool.true_and, mortonAxis, mortonAxis,
        if_neg (by omega), if_pos (by omega), if_neg (by omega), if_pos (by omega)] at this
      rwa [show (3 * i + 1) / 3 = i by omega] at this
    · have := h (3 * i) (by omega)
      rw [decide_eq_true (by omega), Bool.true_and, Bool.true_and, mortonAxis, mortonAxis,
        if_neg (by omega), if_neg (by omega), if_neg (by omega), if_neg (by omega)] at this
      rwa [show 3 * i / 3 = i by omega] at this
  · rintro ⟨hx, hy, hz⟩ j hj
    by_cases hlt : j < 63
    · rw [decide_eq_true hlt, Bool.true_and, Bool.true_and, mortonAxis, mortonAxis]
      split_ifs with h₂ h₁
      · exact hx _ (by omega) (by omega)
      · exact hy _ (by omega) (by omega)
      · exact hz _ (by omega) (by omega)
    · rw [decide_eq_false hlt, Bool.false_and, Bool.false_and]

/-- **When a cell is like a cube**: two points lie in one cell exactly when they lie in one cube,
unless they lie in the two cubes that a cell stacks. -/
theorem prefixAt_morton_iff_sameCube (hd : d % 3 = 0) (h3 : 3 ≤ d) (hle : d ≤ 63)
    (n n' : GridPoint) :
    (prefixAt n.morton d = prefixAt n'.morton d ↔ SameCube d n n') ↔ ¬ StackedCubes d n n' := by
  rw [prefixAt_morton_iff hd h3 hle]
  constructor
  · intro h hstacked
    exact hstacked.z_ne (h.1 ⟨hstacked.x, hstacked.y, hstacked.z⟩).z
  · intro h
    constructor
    · rintro ⟨hx, hy, hz⟩
      refine ⟨hx, hy, ?_⟩
      by_contra hne
      exact h ⟨hx, hy, hz, hne⟩
    · intro hcube
      refine ⟨hcube.x, hcube.y, ?_⟩
      have hbits := (shiftRight_eq_iff n.z_lt n'.z_lt).1 hcube.z
      apply (shiftRight_eq_iff n.z_lt n'.z_lt).2
      exact fun i hi hlt => hbits i (by omega) hlt

/-- The lowest point of the grid. -/
def origin : GridPoint := ⟨0, 0, 0, by norm_num, by norm_num, by norm_num⟩

/-- The lowest point of the upper half of the last axis. -/
def upperHalf : GridPoint := ⟨0, 0, 2 ^ 20, by norm_num, by norm_num, by norm_num⟩

theorem prefixAt_morton_iff_sameCube_upperHalf :
    (prefixAt origin.morton 6 = prefixAt upperHalf.morton 6 ↔ SameCube 6 origin upperHalf) := by
  apply (prefixAt_morton_iff_sameCube (by norm_num) (by norm_num) (by norm_num) _ _).2
  intro h
  have hz := h.z
  norm_num [origin, upperHalf, Nat.shiftRight_eq_div_pow] at hz

/-- The halves of the last axis lie in one cell of depth 3. -/
theorem not_prefixAt_iff_sameCube :
    ¬ ∀ d, d % 3 = 0 → 3 ≤ d → d ≤ 63 → ∀ n n' : GridPoint,
      (prefixAt n.morton d = prefixAt n'.morton d ↔ SameCube d n n') := by
  intro h
  have hcell : prefixAt origin.morton 3 = prefixAt upperHalf.morton 3 := by decide
  have hcube := (h 3 (by norm_num) (by norm_num) (by norm_num) origin upperHalf).1 hcell
  have hz := hcube.z
  norm_num [origin, upperHalf, Nat.shiftRight_eq_div_pow] at hz

end GridPoint

end InterstellarDb
