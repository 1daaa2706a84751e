import Mathlib.Tactic.Ring
import InterstellarDb.Index.Cell

/-!
# Morton codes

The Morton code of three 21-bit coordinates interleaves their bits: bit `i` of `x`, `y`, `z`
goes to bit `3 i + 2`, `3 i + 1`, `3 i` (`testBit_encode3dMorton`). Decoding gives the coordinates
back (`decode3dMorton_encode3dMorton`), and coordinates that agree above the grid step of a depth
lie in one cell at that depth (`prefixAt_encode3dMorton`).
-/

namespace InterstellarDb

/-- Bit `i` of `x`, moved to bit `s`. -/
def moveBit (x i s : ℕ) : ℕ := ((x >>> i) &&& 1) <<< s

/-- `encode_3d_morton`. -/
def encode3dMorton (x y z : ℕ) : ℕ :=
  (List.range 21).foldl
    (fun morton i =>
      morton ||| (moveBit x i (3 * i + 2) ||| moveBit y i (3 * i + 1) ||| moveBit z i (3 * i))) 0

/-- `decode_3d_morton`. -/
def decode3dMorton (morton : ℕ) : ℕ × ℕ × ℕ :=
  (List.range 21).foldl
    (fun (x, y, z) i =>
      (x ||| moveBit morton (3 * i + 2) i, y ||| moveBit morton (3 * i + 1) i,
        z ||| moveBit morton (3 * i) i)) (0, 0, 0)

theorem testBit_moveBit (x i s j : ℕ) :
    (moveBit x i s).testBit j = (decide (j = s) && x.testBit i) := by
  have hbit : ∀ k, ((x >>> i) &&& 1).testBit k = (decide (k = 0) && x.testBit i) := by
    intro k
    rw [Nat.testBit_and, Nat.testBit_shiftRight]
    cases k with
    | zero => simp
    | succ k => simp [Nat.testBit_succ]
  rw [moveBit, Nat.testBit_shiftLeft, hbit]
  by_cases hj : j = s
  · simp [hj]
  · by_cases hs : j ≥ s
    · rw [decide_eq_false hj, decide_eq_false (by omega : ¬ j - s = 0)]
      simp
    · simp [hj, hs]

/-- A bit of an accumulated union. -/
theorem testBit_foldl_or (g : ℕ → ℕ) (n j : ℕ) :
    ((List.range n).foldl (fun m i => m ||| g i) 0).testBit j = true ↔
      ∃ i < n, (g i).testBit j = true := by
  induction n with
  | zero => simp
  | succ n ih =>
    rw [List.range_succ, List.foldl_append, List.foldl_cons, List.foldl_nil, Nat.testBit_or,
      Bool.or_eq_true, ih]
    constructor
    · rintro (⟨i, hi, h⟩ | h)
      · exact ⟨i, by omega, h⟩
      · exact ⟨n, by omega, h⟩
    · rintro ⟨i, hi, h⟩
      by_cases hin : i = n
      · subst hin
        exact .inr h
      · exact .inl ⟨i, by omega, h⟩

/-- The coordinate whose bits go to the bits `j` of a code. -/
def mortonAxis (x y z j : ℕ) : ℕ := if j % 3 = 2 then x else if j % 3 = 1 then y else z

theorem testBit_encode3dMorton (x y z j : ℕ) :
    (encode3dMorton x y z).testBit j =
      (decide (j < 63) && (mortonAxis x y z j).testBit (j / 3)) := by
  rw [Bool.eq_iff_iff, encode3dMorton, testBit_foldl_or]
  simp only [Nat.testBit_or, testBit_moveBit, Bool.or_eq_true, Bool.and_eq_true,
    decide_eq_true_eq, mortonAxis]
  constructor
  · rintro ⟨i, hi, (⟨rfl, h⟩ | ⟨rfl, h⟩) | ⟨rfl, h⟩⟩
    · refine ⟨by omega, ?_⟩
      rwa [if_pos (by omega), show (3 * i + 2) / 3 = i by omega]
    · refine ⟨by omega, ?_⟩
      rwa [if_neg (by omega), if_pos (by omega), show (3 * i + 1) / 3 = i by omega]
    · refine ⟨by omega, ?_⟩
      rwa [if_neg (by omega), if_neg (by omega), show 3 * i / 3 = i by omega]
  · rintro ⟨hj, h⟩
    refine ⟨j / 3, by omega, ?_⟩
    split_ifs at h with h₂ h₁
    · exact .inl (.inl ⟨by omega, h⟩)
    · exact .inl (.inr ⟨by omega, h⟩)
    · exact .inr ⟨by omega, h⟩

theorem encode3dMorton_lt (x y z : ℕ) : encode3dMorton x y z < 2 ^ 63 := by
  refine Nat.lt_pow_two_of_testBit _ fun j hj => ?_
  rw [testBit_encode3dMorton, decide_eq_false (by omega), Bool.false_and]

theorem decode3dMorton_eq (m : ℕ) :
    decode3dMorton m =
      ((List.range 21).foldl (fun x i => x ||| moveBit m (3 * i + 2) i) 0,
        (List.range 21).foldl (fun y i => y ||| moveBit m (3 * i + 1) i) 0,
        (List.range 21).foldl (fun z i => z ||| moveBit m (3 * i) i) 0) := rfl

/-- One axis of a decoded code. -/
theorem testBit_decode_axis (m c j : ℕ) :
    ((List.range 21).foldl (fun x i => x ||| moveBit m (3 * i + c) i) 0).testBit j =
      (decide (j < 21) && m.testBit (3 * j + c)) := by
  rw [Bool.eq_iff_iff, testBit_foldl_or]
  simp only [testBit_moveBit, Bool.and_eq_true, decide_eq_true_eq]
  constructor
  · rintro ⟨i, hi, rfl, h⟩
    exact ⟨hi, h⟩
  · rintro ⟨hj, h⟩
    exact ⟨j, hj, rfl, h⟩

theorem decode_axis_encode (x y z : ℕ) {c : ℕ} (hc : c < 3)
    (hlt : mortonAxis x y z c < 2 ^ 21) :
    (List.range 21).foldl (fun a i => a ||| moveBit (encode3dMorton x y z) (3 * i + c) i) 0 =
      mortonAxis x y z c := by
  refine Nat.eq_of_testBit_eq fun j => ?_
  rw [testBit_decode_axis, testBit_encode3dMorton, show (3 * j + c) / 3 = j by omega]
  have haxis : mortonAxis x y z (3 * j + c) = mortonAxis x y z c := by
    unfold mortonAxis
    rw [show (3 * j + c) % 3 = c % 3 by omega]
  rw [haxis]
  by_cases hj : j < 21
  · rw [decide_eq_true hj, decide_eq_true (by omega), Bool.true_and, Bool.true_and]
  · rw [decide_eq_false hj, Bool.false_and]
    have := Nat.pow_le_pow_right (n := 2) (by norm_num) (Nat.not_lt.1 hj)
    exact (Nat.testBit_lt_two_pow (hlt.trans_le this)).symm

/-- **Decoding gives the coordinates back.** -/
theorem decode3dMorton_encode3dMorton {x y z : ℕ} (hx : x < 2 ^ 21) (hy : y < 2 ^ 21)
    (hz : z < 2 ^ 21) : decode3dMorton (encode3dMorton x y z) = (x, y, z) := by
  have h₂ := decode_axis_encode x y z (c := 2) (by omega) hx
  have h₁ := decode_axis_encode x y z (c := 1) (by omega) hy
  have h₀ := decode_axis_encode x y z (c := 0) (by omega) hz
  rw [decode3dMorton_eq]
  exact Prod.ext h₂ (Prod.ext h₁ h₀)

theorem shiftRight_testBit_congr {x x' s i : ℕ} (h : x >>> s = x' >>> s) (hi : s ≤ i) :
    x.testBit i = x'.testBit i := by
  have := congrArg (fun n => n.testBit (i - s)) h
  simpa [Nat.testBit_shiftRight, Nat.add_sub_cancel' hi] using this

/-- **Coordinates that agree above the grid step lie in one cell.** -/
theorem prefixAt_encode3dMorton {d x y z x' y' z' : ℕ} (hd : d % 3 = 0) (hle : d ≤ 63)
    (hx : x >>> (21 - d / 3) = x' >>> (21 - d / 3))
    (hy : y >>> (21 - d / 3) = y' >>> (21 - d / 3))
    (hz : z >>> (21 - d / 3) = z' >>> (21 - d / 3)) :
    prefixAt (encode3dMorton x y z) d = prefixAt (encode3dMorton x' y' z') d := by
  have haxis : ∀ j, 64 - d ≤ j → j < 63 →
      (mortonAxis x y z j).testBit (j / 3) = (mortonAxis x' y' z' j).testBit (j / 3) := by
    intro j hj _
    have hi : 21 - d / 3 ≤ j / 3 := by omega
    unfold mortonAxis
    split_ifs
    · exact shiftRight_testBit_congr hx hi
    · exact shiftRight_testBit_congr hy hi
    · exact shiftRight_testBit_congr hz hi
  dsimp only [prefixAt]
  congr 1
  refine Nat.eq_of_testBit_eq fun j => ?_
  rw [Nat.testBit_shiftRight, Nat.testBit_shiftRight, testBit_encode3dMorton,
    testBit_encode3dMorton]
  by_cases hj : 64 - d + j < 63
  · rw [haxis _ (by omega) hj]
  · rw [decide_eq_false hj, Bool.false_and, Bool.false_and]

end InterstellarDb
