import Mathlib.Data.List.Induction
import Mathlib.Order.Compare
import Mathlib.Tactic.Ring

/-!
# Big-endian byte strings

`toBytes w n` is `n` in `w` bytes, most significant first (`n` is reduced modulo `256 ^ w`), and
`ofBytes` reads a byte string back. The two are inverse to each other (`ofBytes_toBytes`,
`toBytes_ofBytes`), and between strings of one length the lexicographic order of the bytes is
the order of the numbers (`compare_eq_compare_ofBytes`).
-/

namespace InterstellarDb

/-- Byte strings, `Vec<u8>` and `[u8; n]`. -/
abbrev Bytes := List UInt8

namespace BigEndian

/-- The number a byte string denotes, most significant byte first. -/
def ofBytes (l : Bytes) : ℕ := l.foldl (fun n b => n * 256 + b.toNat) 0

/-- The low `w` bytes of `n`, most significant first. -/
def toBytes : ℕ → ℕ → Bytes
  | 0, _ => []
  | w + 1, n => toBytes w (n / 256) ++ [UInt8.ofNat n]

@[simp] theorem length_toBytes (w n : ℕ) : (toBytes w n).length = w := by
  induction w generalizing n with
  | zero => rfl
  | succ w ih => simp [toBytes, ih]

@[simp] theorem ofBytes_nil : ofBytes [] = 0 := rfl

theorem ofBytes_concat (l : Bytes) (b : UInt8) :
    ofBytes (l ++ [b]) = ofBytes l * 256 + b.toNat := by
  simp [ofBytes]

theorem ofBytes_append (l m : Bytes) :
    ofBytes (l ++ m) = ofBytes l * 256 ^ m.length + ofBytes m := by
  induction m using List.reverseRecOn with
  | nil => simp
  | append_singleton m b ih =>
    rw [← List.append_assoc, ofBytes_concat, ih, ofBytes_concat, List.length_append,
      List.length_singleton, pow_succ]
    ring

theorem ofBytes_cons (b : UInt8) (l : Bytes) :
    ofBytes (b :: l) = b.toNat * 256 ^ l.length + ofBytes l := by
  have := ofBytes_append [b] l
  simpa [ofBytes] using this

theorem ofBytes_lt (l : Bytes) : ofBytes l < 256 ^ l.length := by
  induction l using List.reverseRecOn with
  | nil => simp
  | append_singleton l b ih =>
    rw [ofBytes_concat, List.length_append, List.length_singleton, pow_succ]
    have := b.toNat_lt
    omega

/-- Reading back what was written. -/
theorem ofBytes_toBytes (w n : ℕ) : ofBytes (toBytes w n) = n % 256 ^ w := by
  induction w generalizing n with
  | zero => simp [toBytes, Nat.mod_one]
  | succ w ih =>
    have hb : (UInt8.ofNat n).toNat = n % 256 := UInt8.toNat_ofNat'
    rw [toBytes, ofBytes_concat, ih, hb, pow_succ, Nat.mul_comm (256 ^ w), Nat.mod_mul]
    omega

theorem ofBytes_toBytes_of_lt {w n : ℕ} (h : n < 256 ^ w) : ofBytes (toBytes w n) = n := by
  rw [ofBytes_toBytes, Nat.mod_eq_of_lt h]

/-- Writing back what was read. -/
theorem toBytes_ofBytes (l : Bytes) : toBytes l.length (ofBytes l) = l := by
  induction l using List.reverseRecOn with
  | nil => rfl
  | append_singleton l b ih =>
    have hb := b.toNat_lt
    have h₁ : (ofBytes l * 256 + b.toNat) / 256 = ofBytes l := by omega
    have h₂ : UInt8.ofNat (ofBytes l * 256 + b.toNat) = b := by
      apply UInt8.toNat_inj.1
      rw [UInt8.toNat_ofNat']
      omega
    rw [List.length_append, List.length_singleton, ofBytes_concat, toBytes, h₁, h₂, ih]

theorem toBytes_injOn {w n m : ℕ} (hn : n < 256 ^ w) (hm : m < 256 ^ w)
    (h : toBytes w n = toBytes w m) : n = m := by
  rw [← ofBytes_toBytes_of_lt hn, h, ofBytes_toBytes_of_lt hm]

theorem ofBytes_inj {l m : Bytes} (hlen : l.length = m.length) (h : ofBytes l = ofBytes m) :
    l = m := by
  rw [← toBytes_ofBytes l, ← toBytes_ofBytes m, hlen, h]

/-! ## Order -/

theorem compare_toNat (a b : UInt8) : compare a b = compare a.toNat b.toNat := by
  simp only [compare, compareOfLessAndEq, UInt8.lt_iff_toNat_lt, ← UInt8.toNat_inj]

/-- A smaller leading digit decides. -/
theorem mul_add_lt {a b x y N : ℕ} (hab : a < b) (hx : x < N) : a * N + x < b * N + y := by
  have := Nat.mul_le_mul_right N hab
  rw [Nat.succ_mul] at this
  omega

/-- Numbers of two digits compare by the leading one first. -/
theorem compare_mul_add {a b x y N : ℕ} (hx : x < N) (hy : y < N) :
    compare (a * N + x) (b * N + y) = (compare a b).then (compare x y) := by
  rcases Nat.lt_trichotomy a b with hab | hab | hab
  · rw [Nat.compare_eq_lt.2 hab, Nat.compare_eq_lt.2 (mul_add_lt hab hx)]
    rfl
  · rw [hab, Nat.compare_eq_eq.2 rfl]
    simp only [Nat.compare_eq_ite_lt, Nat.add_lt_add_iff_left, Ordering.eq_then]
  · rw [Nat.compare_eq_gt.2 hab, Nat.compare_eq_gt.2 (mul_add_lt hab hy)]
    rfl

/-- Between byte strings of one length, the order of the bytes is the order of the numbers. -/
theorem compare_eq_compare_ofBytes {l m : Bytes} (h : l.length = m.length) :
    compare l m = compare (ofBytes l) (ofBytes m) := by
  induction l generalizing m with
  | nil =>
    obtain rfl := List.length_eq_zero_iff.1 h.symm
    rfl
  | cons a l ih =>
    cases m with
    | nil => simp at h
    | cons b m =>
      have hlen : l.length = m.length := by simpa using h
      have hl := ofBytes_lt l
      have hm := ofBytes_lt m
      rw [hlen] at hl
      rw [List.compare_cons_cons, ih hlen, ofBytes_cons, ofBytes_cons, hlen,
        compare_mul_add hl hm, compare_toNat]

/-- An end key padded by more bytes is past every string of its own length up to it. -/
theorem compare_append_eq_lt {l m t : Bytes} (h : l.length = m.length) (ht : t ≠ []) :
    compare l (m ++ t) = .lt ↔ ofBytes l ≤ ofBytes m := by
  rw [← Nat.compare_ne_gt, ← compare_eq_compare_ofBytes h]
  induction l generalizing m with
  | nil =>
    obtain rfl := List.length_eq_zero_iff.1 h.symm
    cases t with
    | nil => exact absurd rfl ht
    | cons b t => simp [List.compare_nil_cons]
  | cons a l ih =>
    cases m with
    | nil => simp at h
    | cons b m =>
      rw [List.cons_append, List.compare_cons_cons, List.compare_cons_cons]
      have := ih (m := m) (by simpa using h)
      cases compare a b <;> simp [this]

end BigEndian

end InterstellarDb
