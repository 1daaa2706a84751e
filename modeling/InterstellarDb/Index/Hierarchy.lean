import Mathlib.Data.Nat.Bitwise
import InterstellarDb.Index.Morton

/-!
# Morton codes as a hierarchy

Coding is a bijection between the triples of 21-bit coordinates and the codes below `2 ^ 63`
(`decode3dMorton_encode3dMorton`, `encode3dMorton_decode3dMorton`).

* Dropping the low `3 k` bits of a code drops the low `k` bits of each coordinate, so the codes of
  one level are the codes of the coordinates of that level (`encode3dMorton_shiftRight`).
* Coding is monotone in the three coordinates together (`encode3dMorton_mono`): the highest bit in
  which two codes differ is the highest one in which the coordinates of its axis differ.
-/

namespace InterstellarDb

/-! ## Bits and order -/

/-- Of two numbers, the smaller one has a zero at the highest bit that differs. -/
theorem exists_testBit_of_lt {a b : ℕ} (h : a < b) :
    ∃ i, a.testBit i = false ∧ b.testBit i = true ∧
      ∀ j, i < j → a.testBit j = b.testBit j := by
  obtain ⟨i, hi, habove⟩ := Nat.exists_most_significant_bit (Nat.xor_ne_zero_iff.2 h.ne)
  have hsame : ∀ j, i < j → a.testBit j = b.testBit j := by
    intro j hj
    have := habove j hj
    rwa [Nat.testBit_xor, bne_eq_false_iff_eq] at this
  rw [Nat.testBit_xor, bne_iff_ne] at hi
  cases ha : a.testBit i with
  | false =>
    refine ⟨i, ha, ?_, hsame⟩
    rw [ha] at hi
    exact Bool.eq_true_of_not_eq_false hi.symm
  | true =>
    have hb : b.testBit i = false := by
      rw [ha] at hi
      exact Bool.eq_false_of_not_eq_true hi.symm
    have hba := Nat.lt_of_testBit i hb ha fun j hj => (hsame j hj).symm
    exact absurd hba (not_lt.2 h.le)

theorem testBit_eq_false_of_lt_21 {x i : ℕ} (hx : x < 2 ^ 21) (hi : 21 ≤ i) :
    x.testBit i = false :=
  Nat.testBit_lt_two_pow (hx.trans_le (Nat.pow_le_pow_right (by norm_num) hi))

/-! ## The axis of a bit -/

theorem mortonAxis_lt {x y z : ℕ} (hx : x < 2 ^ 21) (hy : y < 2 ^ 21) (hz : z < 2 ^ 21) (j : ℕ) :
    mortonAxis x y z j < 2 ^ 21 := by
  unfold mortonAxis
  split_ifs
  · exact hx
  · exact hy
  · exact hz

theorem mortonAxis_mono {x y z x' y' z' : ℕ} (hx : x ≤ x') (hy : y ≤ y') (hz : z ≤ z') (j : ℕ) :
    mortonAxis x y z j ≤ mortonAxis x' y' z' j := by
  unfold mortonAxis
  split_ifs
  · exact hx
  · exact hy
  · exact hz

theorem mortonAxis_shiftRight (x y z k j : ℕ) :
    mortonAxis (x >>> k) (y >>> k) (z >>> k) j = mortonAxis x y z j >>> k := by
  unfold mortonAxis
  split_ifs <;> rfl

theorem mortonAxis_add_mul (x y z j i : ℕ) :
    mortonAxis x y z (3 * i + j) = mortonAxis x y z j := by
  unfold mortonAxis
  rw [Nat.mul_add_mod]

/-! ## The two directions -/

/-- A decoded coordinate has 21 bits. -/
theorem decode_axis_lt (m c : ℕ) :
    (List.range 21).foldl (fun x i => x ||| moveBit m (3 * i + c) i) 0 < 2 ^ 21 := by
  refine Nat.lt_pow_two_of_testBit _ fun j hj => ?_
  rw [testBit_decode_axis, decide_eq_false (by omega), Bool.false_and]

/-- **Coding what was decoded gives the code back.** -/
theorem encode3dMorton_decode3dMorton {m : ℕ} (hm : m < 2 ^ 63) :
    encode3dMorton (decode3dMorton m).1 (decode3dMorton m).2.1 (decode3dMorton m).2.2 = m := by
  refine Nat.eq_of_testBit_eq fun j => ?_
  rw [decode3dMorton_eq, testBit_encode3dMorton]
  by_cases hj : j < 63
  · have hlt : j / 3 < 21 := by omega
    rw [decide_eq_true hj, Bool.true_and, mortonAxis]
    split_ifs with h₂ h₁
    · rw [testBit_decode_axis, decide_eq_true hlt, Bool.true_and,
        show 3 * (j / 3) + 2 = j by omega]
    · rw [testBit_decode_axis, decide_eq_true hlt, Bool.true_and,
        show 3 * (j / 3) + 1 = j by omega]
    · have h₀ := testBit_decode_axis m 0 (j / 3)
      simp only [add_zero] at h₀
      rw [h₀, decide_eq_true hlt, Bool.true_and, show 3 * (j / 3) = j by omega]
  · rw [decide_eq_false hj, Bool.false_and]
    have := Nat.pow_le_pow_right (n := 2) (by norm_num) (Nat.not_lt.1 hj)
    exact (Nat.testBit_lt_two_pow (hm.trans_le this)).symm

/-! ## Levels and order -/

section Coordinates

variable {x y z : ℕ} (hx : x < 2 ^ 21) (hy : y < 2 ^ 21) (hz : z < 2 ^ 21)

include hx hy hz

/-- **The codes of one level are the codes of the coordinates of that level.** -/
theorem encode3dMorton_shiftRight (k : ℕ) :
    encode3dMorton x y z >>> (3 * k) = encode3dMorton (x >>> k) (y >>> k) (z >>> k) := by
  refine Nat.eq_of_testBit_eq fun j => ?_
  rw [Nat.testBit_shiftRight, testBit_encode3dMorton, testBit_encode3dMorton, mortonAxis_add_mul,
    mortonAxis_shiftRight, Nat.testBit_shiftRight, show (3 * k + j) / 3 = k + j / 3 by omega]
  by_cases hj : 3 * k + j < 63
  · rw [decide_eq_true hj, decide_eq_true (by omega : j < 63)]
  · -- past the top bit of the code both coordinates have run out of bits
    have hout := testBit_eq_false_of_lt_21 (mortonAxis_lt hx hy hz j)
      (by omega : 21 ≤ k + j / 3)
    rw [hout, Bool.and_false, Bool.and_false]

/-- **Coding is monotone.** -/
theorem encode3dMorton_mono {x' y' z' : ℕ} (hx' : x' < 2 ^ 21) (hy' : y' < 2 ^ 21)
    (hz' : z' < 2 ^ 21) (hxx : x ≤ x') (hyy : y ≤ y') (hzz : z ≤ z') :
    encode3dMorton x y z ≤ encode3dMorton x' y' z' := by
  by_contra hlt
  obtain ⟨j, hlow, hhigh, habove⟩ := exists_testBit_of_lt (not_le.1 hlt)
  rw [testBit_encode3dMorton, Bool.and_eq_true, decide_eq_true_eq] at hhigh
  obtain ⟨hj, hhigh⟩ := hhigh
  rw [testBit_encode3dMorton, decide_eq_true hj, Bool.true_and] at hlow
  -- above the bit `j / 3` the coordinates of the axis of `j` agree
  have hsame : ∀ i, j / 3 < i →
      (mortonAxis x' y' z' j).testBit i = (mortonAxis x y z j).testBit i := by
    intro i hi
    by_cases hi21 : i < 21
    · have hbit := habove (3 * (i - j / 3) + j) (by omega)
      rwa [testBit_encode3dMorton, testBit_encode3dMorton, mortonAxis_add_mul, mortonAxis_add_mul,
        decide_eq_true (by omega : 3 * (i - j / 3) + j < 63), Bool.true_and, Bool.true_and,
        show (3 * (i - j / 3) + j) / 3 = i by omega] at hbit
    · rw [testBit_eq_false_of_lt_21 (mortonAxis_lt hx' hy' hz' j) (not_lt.1 hi21),
        testBit_eq_false_of_lt_21 (mortonAxis_lt hx hy hz j) (not_lt.1 hi21)]
  have haxis := Nat.lt_of_testBit (j / 3) hlow hhigh hsame
  exact absurd (mortonAxis_mono hxx hyy hzz j) (not_le.2 haxis)

end Coordinates

/-- **The laws of Morton coding.** On 21-bit coordinates and codes below `2 ^ 63` the two loops
are inverse to each other, coding commutes with dropping the low bits at every level, and it
preserves the componentwise order. -/
theorem morton_hierarchy :
    (∀ x y z, x < 2 ^ 21 → y < 2 ^ 21 → z < 2 ^ 21 →
      decode3dMorton (encode3dMorton x y z) = (x, y, z)) ∧
    (∀ m, m < 2 ^ 63 → ∃ x y z, decode3dMorton m = (x, y, z) ∧
      x < 2 ^ 21 ∧ y < 2 ^ 21 ∧ z < 2 ^ 21 ∧ encode3dMorton x y z = m) ∧
    (∀ x y z k, x < 2 ^ 21 → y < 2 ^ 21 → z < 2 ^ 21 → k ≤ 21 →
      encode3dMorton x y z >>> (3 * k) = encode3dMorton (x >>> k) (y >>> k) (z >>> k)) ∧
    (∀ x y z x' y' z', x < 2 ^ 21 → y < 2 ^ 21 → z < 2 ^ 21 →
      x' < 2 ^ 21 → y' < 2 ^ 21 → z' < 2 ^ 21 → x ≤ x' → y ≤ y' → z ≤ z' →
      encode3dMorton x y z ≤ encode3dMorton x' y' z') := by
  refine ⟨fun x y z hx hy hz => decode3dMorton_encode3dMorton hx hy hz, fun m hm => ?_,
    fun x y z k hx hy hz _ => encode3dMorton_shiftRight hx hy hz k,
    fun x y z x' y' z' hx hy hz hx' hy' hz' hxx hyy hzz =>
      encode3dMorton_mono hx hy hz hx' hy' hz' hxx hyy hzz⟩
  refine ⟨_, _, _, rfl, ?_, ?_, ?_, encode3dMorton_decode3dMorton hm⟩
  · exact decode_axis_lt m 2
  · exact decode_axis_lt m 1
  · exact decode_axis_lt m 0

theorem morton_hierarchy_sample :
    decode3dMorton (encode3dMorton 5 3 6) = (5, 3, 6) ∧
      encode3dMorton 5 3 6 >>> (3 * 1) = encode3dMorton (5 >>> 1) (3 >>> 1) (6 >>> 1) ∧
      encode3dMorton 5 3 6 ≤ encode3dMorton 5 4 7 ∧
      ∃ x y z, decode3dMorton (2 ^ 63 - 1) = (x, y, z) ∧ x < 2 ^ 21 ∧ y < 2 ^ 21 ∧ z < 2 ^ 21 ∧
        encode3dMorton x y z = 2 ^ 63 - 1 := by
  obtain ⟨hinv, hsurj, hshift, hmono⟩ := morton_hierarchy
  refine ⟨hinv 5 3 6 ?_ ?_ ?_, hshift 5 3 6 1 ?_ ?_ ?_ ?_,
    hmono 5 3 6 5 4 7 ?_ ?_ ?_ ?_ ?_ ?_ ?_ ?_ ?_, hsurj (2 ^ 63 - 1) ?_⟩ <;> omega

end InterstellarDb
