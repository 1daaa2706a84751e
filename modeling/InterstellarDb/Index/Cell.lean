import Mathlib.Data.Nat.Bitwise
import InterstellarDb.Index.Key

/-!
# Morton cells

A cell at depth `d` of an epoch is named by a prefix, the top `d` bits of a 64-bit Morton code
with zeros below (`prefixAt`). The eight children of a cell are its prefix with three more bits
(`childPrefix`), and every code of the cell lies in one of them (`exists_childPrefix`). The keys
of a cell are an interval of the byte order (`mem_leafKeyRange`).
-/

namespace InterstellarDb

/-- `prefix_at`: the prefix of a Morton code at a depth. -/
def prefixAt (morton depthBits : ℕ) : ℕ :=
  let shift := 64 - depthBits
  (morton >>> shift) <<< shift

theorem prefixAt_eq (m d : ℕ) : prefixAt m d = m / 2 ^ (64 - d) * 2 ^ (64 - d) := by
  rw [prefixAt, Nat.shiftLeft_eq, Nat.shiftRight_eq_div_pow]

theorem prefixAt_le (m d : ℕ) : prefixAt m d ≤ m := by
  rw [prefixAt_eq]
  exact Nat.div_mul_le_self _ _

@[simp] theorem prefixAt_zero {m : ℕ} (hm : m < 2 ^ 64) : prefixAt m 0 = 0 := by
  rw [prefixAt_eq, Nat.div_eq_of_lt hm, Nat.zero_mul]

/-- The prefix of a prefix is that of the code. -/
theorem prefixAt_prefixAt (m : ℕ) {d d' : ℕ} (h : d ≤ d') :
    prefixAt (prefixAt m d') d = prefixAt m d := by
  obtain ⟨k, hk⟩ : ∃ k, 64 - d = 64 - d' + k := ⟨64 - d - (64 - d'), by omega⟩
  rw [prefixAt_eq, prefixAt_eq, prefixAt_eq, hk, pow_add, ← Nat.div_div_eq_div_mul,
    Nat.mul_div_cancel _ (Nat.two_pow_pos _), Nat.div_div_eq_div_mul]

/-- `p` is a prefix at depth `d`: a 64-bit word with zeros below its top `d` bits. -/
structure IsPrefix (d p : ℕ) : Prop where
  lt : p < 2 ^ 64
  fixed : prefixAt p d = p

theorem isPrefix_prefixAt {m : ℕ} (hm : m < 2 ^ 64) (d : ℕ) : IsPrefix d (prefixAt m d) :=
  ⟨(prefixAt_le m d).trans_lt hm, prefixAt_prefixAt m le_rfl⟩

theorem isPrefix_zero : IsPrefix 0 0 := ⟨by norm_num, by norm_num⟩

theorem IsPrefix.eq_zero {p : ℕ} (h : IsPrefix 0 p) : p = 0 := by
  rw [← h.fixed, prefixAt_zero h.lt]

theorem IsPrefix.dvd {d p : ℕ} (h : IsPrefix d p) : 2 ^ (64 - d) ∣ p := by
  rw [← h.fixed, prefixAt_eq]
  exact Nat.dvd_mul_left _ _

theorem IsPrefix.or_eq_add {d p x : ℕ} (h : IsPrefix d p) (hx : x < 2 ^ (64 - d)) :
    p ||| x = p + x := by
  obtain ⟨q, rfl⟩ := h.dvd
  rw [Nat.mul_comm, ← Nat.shiftLeft_eq]
  exact (Nat.shiftLeft_add_eq_or_of_lt hx q).symm

/-! ## Children -/

/-- The prefix of the child `c` of a cell, one level deeper. -/
def childPrefix (depthBits p c : ℕ) : ℕ := p ||| (c <<< (64 - (depthBits + 3)))

section Children

variable {d p : ℕ}

theorem two_pow_sub_eq (hd : d + 3 ≤ 64) : 2 ^ (64 - d) = 8 * 2 ^ (64 - (d + 3)) := by
  rw [show 64 - d = 64 - (d + 3) + 3 by omega, pow_add, Nat.mul_comm]
  norm_num

theorem IsPrefix.childPrefix_eq (h : IsPrefix d p) (hd : d + 3 ≤ 64) {c : ℕ} (hc : c < 8) :
    childPrefix d p c = p + c * 2 ^ (64 - (d + 3)) := by
  have hlt : c * 2 ^ (64 - (d + 3)) < 2 ^ (64 - d) := by
    rw [two_pow_sub_eq hd]
    exact Nat.mul_lt_mul_of_pos_right hc (Nat.two_pow_pos _)
  rw [childPrefix, Nat.shiftLeft_eq, h.or_eq_add hlt]

theorem IsPrefix.childPrefix (h : IsPrefix d p) (hd : d + 3 ≤ 64) {c : ℕ} (hc : c < 8) :
    IsPrefix (d + 3) (childPrefix d p c) := by
  rw [h.childPrefix_eq hd hc]
  have hstep := two_pow_sub_eq hd
  set N := 2 ^ (64 - (d + 3)) with hN
  have hpos : 0 < N := Nat.two_pow_pos _
  obtain ⟨q, rfl⟩ := h.dvd
  have hlt := h.lt
  obtain ⟨r, hr⟩ : 2 ^ (64 - d) ∣ 2 ^ 64 := pow_dvd_pow _ (by omega)
  rw [hstep] at hr hlt ⊢
  have hsum : 8 * N * q + c * N = (8 * q + c) * N := by ring
  refine ⟨?_, ?_⟩
  · -- a whole cell of the parent's depth fits above `q`
    have hqr : q + 1 ≤ r := by
      rw [hr] at hlt
      exact Nat.lt_of_mul_lt_mul_left hlt
    calc 8 * N * q + c * N < 8 * N * q + 8 * N := by
          exact Nat.add_lt_add_left (Nat.mul_lt_mul_of_pos_right hc hpos) _
      _ = 8 * N * (q + 1) := by ring
      _ ≤ 8 * N * r := Nat.mul_le_mul_left _ hqr
      _ = 2 ^ 64 := hr.symm
  · rw [prefixAt_eq, ← hN, hsum, Nat.mul_div_cancel _ hpos]

/-- A code of a cell lies in one of its eight children. -/
theorem exists_childPrefix {m : ℕ} (hm : m < 2 ^ 64) (hd : d + 3 ≤ 64) :
    ∃ c < 8, prefixAt m (d + 3) = childPrefix d (prefixAt m d) c := by
  set N := 2 ^ (64 - (d + 3)) with hN
  refine ⟨m / N % 8, Nat.mod_lt _ (by norm_num), ?_⟩
  rw [(isPrefix_prefixAt hm d).childPrefix_eq hd (Nat.mod_lt _ (by norm_num)), prefixAt_eq,
    prefixAt_eq, two_pow_sub_eq hd, ← hN, Nat.mul_comm 8 N, ← Nat.div_div_eq_div_mul]
  have := Nat.div_add_mod (m / N) 8
  nth_rewrite 1 [← this]
  ring

end Children

/-! ## Keys of a cell -/

/-- The key lies in the cell `(d, p)` of the epoch `e`. -/
def InCell (e : Epoch) (d p : ℕ) (k : Key) : Prop := k.epoch = e ∧ prefixAt k.morton d = p

instance (e : Epoch) (d p : ℕ) (k : Key) : Decidable (InCell e d p k) :=
  inferInstanceAs (Decidable (_ ∧ _))

/-- The epoch is the cell at depth 0. -/
@[simp] theorem inCell_zero {e : Epoch} {k : Key} : InCell e 0 0 k ↔ k.epoch = e := by
  simp [InCell, prefixAt_zero k.morton_lt]

theorem inCell_self (d : ℕ) (k : Key) : InCell k.epoch d (prefixAt k.morton d) k := ⟨rfl, rfl⟩

theorem InCell.exists_child {e : Epoch} {d p : ℕ} {k : Key} (h : InCell e d p k)
    (hd : d + 3 ≤ 64) : ∃ c < 8, InCell e (d + 3) (childPrefix d p c) k := by
  obtain ⟨rfl, rfl⟩ := h
  obtain ⟨c, hc, h⟩ := exists_childPrefix k.morton_lt hd
  exact ⟨c, hc, rfl, h⟩

/-- `leaf_key_range`: the least and the greatest key of a cell. -/
def leafKeyRange (epoch : Epoch) (p depthBits : ℕ) : Key × Key :=
  let spatialMask := 1 <<< (64 - depthBits) - 1
  (.ofFields epoch p 0, .ofFields epoch (p ||| spatialMask) (2 ^ 64 - 1))

theorem IsPrefix.or_mask {d p : ℕ} (h : IsPrefix d p) :
    p ||| (1 <<< (64 - d) - 1) = p + (2 ^ (64 - d) - 1) := by
  rw [Nat.shiftLeft_eq, Nat.one_mul]
  exact h.or_eq_add (Nat.sub_lt (Nat.two_pow_pos _) (by norm_num))

theorem IsPrefix.add_mask_lt {d p : ℕ} (h : IsPrefix d p) : p + (2 ^ (64 - d) - 1) < 2 ^ 64 := by
  have hpos : 0 < 2 ^ (64 - d) := Nat.two_pow_pos _
  have hdvd : 2 ^ (64 - d) ∣ 2 ^ 64 := pow_dvd_pow _ (by omega)
  obtain ⟨q, hq⟩ := h.dvd
  obtain ⟨r, hr⟩ := hdvd
  have hlt := h.lt
  rw [hq, hr] at hlt
  have hqr : q + 1 ≤ r := Nat.lt_of_mul_lt_mul_left hlt
  have := Nat.mul_le_mul_left (2 ^ (64 - d)) hqr
  rw [Nat.mul_add, Nat.mul_one, ← hq, ← hr] at this
  omega

/-- The codes of a cell are an interval. -/
theorem IsPrefix.prefixAt_eq_iff {d p m : ℕ} (h : IsPrefix d p) :
    prefixAt m d = p ↔ p ≤ m ∧ m ≤ p + (2 ^ (64 - d) - 1) := by
  have hpos : 0 < 2 ^ (64 - d) := Nat.two_pow_pos _
  obtain ⟨q, rfl⟩ := h.dvd
  rw [prefixAt_eq, Nat.mul_comm, Nat.mul_right_inj hpos.ne', Nat.div_eq_iff hpos,
    Nat.mul_comm]
  omega

/-- A prefix above another one of its depth is above all codes of that cell. -/
theorem IsPrefix.add_mask_lt_of_lt {d p p' : ℕ} (hp : IsPrefix d p) (hp' : IsPrefix d p')
    (h : p < p') : p + (2 ^ (64 - d) - 1) < p' := by
  by_contra hle
  have hin : prefixAt p' d = p := hp.prefixAt_eq_iff.2 ⟨h.le, Nat.not_lt.1 hle⟩
  rw [hp'.fixed] at hin
  omega

/-- A child lies in its parent. -/
theorem prefixAt_childPrefix {d p : ℕ} (h : IsPrefix d p) (hd : d + 3 ≤ 64) {c : ℕ} (hc : c < 8) :
    prefixAt (childPrefix d p c) d = p := by
  have hpos : 0 < 2 ^ (64 - (d + 3)) := Nat.two_pow_pos _
  have hle : c * 2 ^ (64 - (d + 3)) ≤ 7 * 2 ^ (64 - (d + 3)) := Nat.mul_le_mul_right _ (by omega)
  rw [h.prefixAt_eq_iff, h.childPrefix_eq hd hc, two_pow_sub_eq hd]
  omega

theorem childPrefix_lt_childPrefix {d p : ℕ} (h : IsPrefix d p) (hd : d + 3 ≤ 64) {c c' : ℕ}
    (hlt : c < c') (hc' : c' < 8) : childPrefix d p c < childPrefix d p c' := by
  rw [h.childPrefix_eq hd (hlt.trans hc'), h.childPrefix_eq hd hc']
  exact Nat.add_lt_add_left (Nat.mul_lt_mul_of_pos_right hlt (Nat.two_pow_pos _)) p

theorem childPrefix_inj {d p : ℕ} (h : IsPrefix d p) (hd : d + 3 ≤ 64) {c c' : ℕ} (hc : c < 8)
    (hc' : c' < 8) (heq : childPrefix d p c = childPrefix d p c') : c = c' := by
  rw [h.childPrefix_eq hd hc, h.childPrefix_eq hd hc'] at heq
  exact Nat.eq_of_mul_eq_mul_right (Nat.two_pow_pos _) (Nat.add_left_cancel heq)

/-- **The keys of a cell are those between the ends of its key range.** -/
theorem mem_leafKeyRange {e : Epoch} {d p : ℕ} (hp : IsPrefix d p) (k : Key) :
    (leafKeyRange e p d).1.toNat ≤ k.toNat ∧ k.toNat ≤ (leafKeyRange e p d).2.toNat ↔
      InCell e d p k := by
  have hm := k.morton_lt
  have ho := k.offset_lt
  have hp' := hp.lt
  have hmask := hp.add_mask_lt
  simp only [leafKeyRange, InCell, hp.prefixAt_eq_iff, hp.or_mask, Key.toNat_eq,
    Key.epoch_ofFields, Key.morton_ofFields, Key.offset_ofFields, Nat.mod_eq_of_lt hp',
    Nat.mod_eq_of_lt hmask, Fin.ext_iff]
  generalize 2 ^ (64 - d) - 1 = mask at *
  omega

/-- The key range of a cell is not empty. -/
theorem leafKeyRange_le (e : Epoch) {d p : ℕ} (hp : IsPrefix d p) :
    (leafKeyRange e p d).1.toNat ≤ (leafKeyRange e p d).2.toNat := by
  have hcell : InCell e d p (leafKeyRange e p d).1 := by
    refine ⟨Key.epoch_ofFields .., ?_⟩
    rw [leafKeyRange, Key.morton_ofFields, Nat.mod_eq_of_lt hp.lt, hp.fixed]
  exact ((mem_leafKeyRange hp _).2 hcell).2

end InterstellarDb
