import InterstellarDb.Index.Ranges

/-!
# The order of planned ranges

Both planners stamp the prefixes of a box, in ascending order, onto epochs, in ascending order. A
stamped range is not empty, whatever its time fields (`cellRange_proper`), and ends below every
range of a later cell or a later epoch (`cellRange_endsBefore`), so the ranges of a plan lie in byte
order one after the other (`ordered_timeWindowRanges`, `ordered_boundaryRanges`) and no key lies in
two of them (`OrderedRanges.length_filter_covers`).
-/

namespace InterstellarDb

namespace HybridSpatioTemporalIndexer

/-- A list of key ranges in byte order: each starts before it ends, and ends before the later ones
start. -/
structure OrderedRanges (ranges : List (Key × Key)) : Prop where
  proper : ∀ range ∈ ranges, compare range.1.bytes range.2.bytes = .lt
  ascending : ranges.Pairwise fun a b => compare a.2.bytes b.1.bytes = .lt

instance (range : Key × Key) (k : Key) : Decidable (Covers range k) :=
  inferInstanceAs (Decidable (_ ∧ _))

theorem OrderedRanges.disjoint {ranges : List (Key × Key)} (h : OrderedRanges ranges) :
    ranges.Pairwise fun a b => ∀ k, Covers a k → ¬ Covers b k := by
  refine h.ascending.imp fun {a b} hab k ha hb => ?_
  rw [Key.compare_bytes, Nat.compare_eq_lt] at hab
  have := ha.2.trans_lt (hab.trans_le hb.1)
  omega

/-- **A key lies in at most one range.** -/
theorem OrderedRanges.length_filter_covers {ranges : List (Key × Key)} (h : OrderedRanges ranges)
    (k : Key) : (ranges.filter fun range => Covers range k).length ≤ 1 := by
  have hpair := h.disjoint.filter fun range => decide (Covers range k)
  have hmem : ∀ range ∈ ranges.filter fun range => decide (Covers range k), Covers range k :=
    fun range hr => of_decide_eq_true (List.mem_filter.1 hr).2
  cases hl : ranges.filter fun range => decide (Covers range k) with
  | nil => exact Nat.zero_le _
  | cons a rest =>
    rw [hl] at hpair hmem
    cases rest with
    | nil => exact le_rfl
    | cons b rest =>
      have hab := (List.pairwise_cons.1 hpair).1 b (by simp) k (hmem a (by simp))
      exact absurd (hmem b (by simp)) hab

/-! ## Ranges of cells -/

section CellRange

variable {d : ℕ} {e e' : Epoch} {p p' lo hi lo' hi' : ℕ}

/-- The range of a cell in an epoch, with the time fields of its ends. -/
def cellRange (d : ℕ) (e : Epoch) (p lo hi : ℕ) : Key × Key :=
  (.ofFields e p lo, .ofFields e (p ||| (1 <<< (64 - d) - 1)) hi)

theorem toNat_cellRange_start (hp : IsPrefix d p) (hlo : lo < 2 ^ 64) :
    (cellRange d e p lo hi).1.toNat = e.val * 2 ^ 128 + p * 2 ^ 64 + lo := by
  simp only [cellRange, Key.toNat_eq, Key.epoch_ofFields, Key.morton_ofFields,
    Key.offset_ofFields, Nat.mod_eq_of_lt hp.lt, Nat.mod_eq_of_lt hlo]

theorem toNat_cellRange_end (hp : IsPrefix d p) (hhi : hi < 2 ^ 64) :
    (cellRange d e p lo hi).2.toNat =
      e.val * 2 ^ 128 + (p + (2 ^ (64 - d) - 1)) * 2 ^ 64 + hi := by
  simp only [cellRange, hp.or_mask, Key.toNat_eq, Key.epoch_ofFields, Key.morton_ofFields,
    Key.offset_ofFields, Nat.mod_eq_of_lt hp.add_mask_lt, Nat.mod_eq_of_lt hhi]

/-- The range of a cell of two codes or more is not empty, whatever its time fields. -/
theorem cellRange_proper (hd : d ≤ 63) (hp : IsPrefix d p) (hlo : lo < 2 ^ 64)
    (hhi : hi < 2 ^ 64) :
    compare (cellRange d e p lo hi).1.bytes (cellRange d e p lo hi).2.bytes = .lt := by
  have htwo : 2 ^ 1 ≤ 2 ^ (64 - d) := Nat.pow_le_pow_right (by norm_num) (by omega)
  rw [Key.compare_bytes, Nat.compare_eq_lt, toNat_cellRange_start hp hlo,
    toNat_cellRange_end hp hhi]
  generalize 2 ^ (64 - d) = width at *
  omega

/-- **The range of a cell ends below those of later cells** of the epoch, and of all cells of later
epochs. -/
theorem cellRange_endsBefore (hp : IsPrefix d p) (hp' : IsPrefix d p') (hhi : hi < 2 ^ 64)
    (hlo' : lo' < 2 ^ 64) (h : e < e' ∨ e = e' ∧ p < p') :
    compare (cellRange d e p lo hi).2.bytes (cellRange d e' p' lo' hi').1.bytes = .lt := by
  rw [Key.compare_bytes, Nat.compare_eq_lt, toNat_cellRange_end hp hhi,
    toNat_cellRange_start hp' hlo']
  rcases h with h | ⟨rfl, h⟩
  · have hval : e.val < e'.val := h
    have hmask := hp.add_mask_lt
    generalize p + (2 ^ (64 - d) - 1) = top at *
    omega
  · have hcell := hp.add_mask_lt_of_lt hp' h
    generalize p + (2 ^ (64 - d) - 1) = top at *
    omega

end CellRange

/-! ## Planned ranges -/

variable {ix : HybridSpatioTemporalIndexer}

/-- **The ranges of one epoch are in byte order.** -/
theorem ordered_boundaryRanges (ix : HybridSpatioTemporalIndexer) (cx cy cz radius : ℚ)
    (timestampSecs : ℕ) {depthBits : ℕ} (hd : depthBits ≤ 63) :
    OrderedRanges (ix.getBoundaryProtectedRanges cx cy cz radius timestampSecs depthBits) := by
  have hranges : ix.getBoundaryProtectedRanges cx cy cz radius timestampSecs depthBits =
      (ix.computeSpatialPrefixes cx cy cz radius depthBits).map fun p =>
        cellRange depthBits (Fin.ofNat (2 ^ 32) (timestampSecs / ix.epochDuration)) p 0
          (2 ^ 64 - 1) := rfl
  rw [hranges]
  constructor
  · intro range hr
    obtain ⟨p, hp, rfl⟩ := List.mem_map.1 hr
    exact cellRange_proper hd (isPrefix_of_mem_computeSpatialPrefixes hp) (by norm_num)
      (by norm_num)
  · rw [List.pairwise_map]
    refine List.Pairwise.imp_of_mem (fun {p q} hp hq hpq => ?_)
      (ix.pairwise_computeSpatialPrefixes cx cy cz radius depthBits)
    exact cellRange_endsBefore (isPrefix_of_mem_computeSpatialPrefixes hp)
      (isPrefix_of_mem_computeSpatialPrefixes hq) (by norm_num) (by norm_num) (.inr ⟨rfl, hpq⟩)

theorem timeWindowRange_eq (ix : HybridSpatioTemporalIndexer) (startSecs endSecs d : ℕ) (e : Epoch)
    (p : ℕ) :
    ix.timeWindowRange startSecs endSecs d e p =
      cellRange d e p (ix.timeLo startSecs e) (ix.timeHi endSecs e) := rfl

/-- **The ranges of a time window are in byte order.** -/
theorem ordered_timeWindowRanges (ix : HybridSpatioTemporalIndexer) (cx cy cz radius : ℚ)
    (startSecs endSecs : ℕ) {depthBits : ℕ} (hd : depthBits ≤ 63) :
    OrderedRanges (ix.getBoundaryProtectedRangesTimeWindow cx cy cz radius startSecs endSecs
      depthBits) := by
  have hlt : endSecs / ix.epochDuration % 2 ^ 32 < 2 ^ 32 := Nat.mod_lt _ (by norm_num)
  constructor
  · intro range hr
    obtain ⟨e, -, -, p, hp, rfl⟩ := mem_timeWindowRanges.1 hr
    rw [timeWindowRange_eq]
    exact cellRange_proper hd (isPrefix_of_mem_computeSpatialPrefixes hp) (timeLo_lt e)
      (timeHi_lt e)
  · rw [timeWindowRanges_eq, List.pairwise_flatMap]
    constructor
    · intro e _
      rw [List.pairwise_map]
      refine List.Pairwise.imp_of_mem (fun {p q} hp hq hpq => ?_)
        (ix.pairwise_computeSpatialPrefixes cx cy cz radius depthBits)
      rw [timeWindowRange_eq, timeWindowRange_eq]
      exact cellRange_endsBefore (isPrefix_of_mem_computeSpatialPrefixes hp)
        (isPrefix_of_mem_computeSpatialPrefixes hq) (timeHi_lt e) (timeLo_lt e) (.inr ⟨rfl, hpq⟩)
    · rw [List.pairwise_map]
      refine List.Pairwise.imp_of_mem (fun {m n} hm hn hmn => ?_) List.pairwise_lt_range'
      simp only [List.mem_map]
      rintro _ ⟨p, hp, rfl⟩ _ ⟨q, hq, rfl⟩
      rw [List.mem_range'_1] at hm hn
      rw [timeWindowRange_eq, timeWindowRange_eq]
      apply cellRange_endsBefore (isPrefix_of_mem_computeSpatialPrefixes hp)
        (isPrefix_of_mem_computeSpatialPrefixes hq) (timeHi_lt _) (timeLo_lt _)
      left
      rw [Fin.lt_def]
      simp only [Fin.ofNat]
      rwa [Nat.mod_eq_of_lt (by omega), Nat.mod_eq_of_lt (by omega)]

end HybridSpatioTemporalIndexer

end InterstellarDb
