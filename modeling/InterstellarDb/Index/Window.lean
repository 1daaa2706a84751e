import Mathlib.Data.Option.Basic
import InterstellarDb.Foundations.Checked
import InterstellarDb.Index.Ranges

/-!
# Epochs of a time window

The planner cuts the first and the last epoch of a window to 32 bits before it subtracts, counts and
iterates. `checkedTimeWindow` is the planner with its assertions, its unsigned arithmetic and the
capacity of its vector checked, and `plansWindow_iff` the exact condition under which it panics
nowhere and plans every epoch that the window meets, and no other.
-/

namespace InterstellarDb

namespace HybridSpatioTemporalIndexer

variable (ix : HybridSpatioTemporalIndexer) (cx cy cz radius : ℚ)
  (startSecs endSecs depthBits : ℕ)

/-- The depths that the planner accepts. -/
abbrev PlannerDepth (depthBits : ℕ) : Prop := 3 ≤ depthBits ∧ depthBits ≤ 63 ∧ depthBits % 3 = 0

/-- `get_boundary_protected_ranges_time_window` with its assertions and every step of its unsigned
arithmetic checked. The casts of the epochs to `u32` are no such steps. -/
def checkedTimeWindow : Option (List (Key × Key)) := do
  guard (PlannerDepth depthBits)
  guard (startSecs ≤ endSecs)
  let d := ix.epochDuration
  let startEpoch : Epoch := Fin.ofNat (2 ^ 32) (startSecs / d)
  let endEpoch : Epoch := Fin.ofNat (2 ^ 32) (endSecs / d)
  let _startNano ← Checked.mul 64 (startSecs % d) nanosPerSec
  let _endNano ← Checked.mul 64 (endSecs % d) nanosPerSec
  let prefixes := ix.computeSpatialPrefixes cx cy cz radius depthBits
  let epochCount ← Checked.add 32 (← Checked.sub endEpoch.val startEpoch.val) 1
  let capacity ← Checked.mul 64 prefixes.length epochCount
  -- `Vec::with_capacity` panics beyond `isize::MAX` bytes, and a range is two keys of 20
  let _bytes ← Checked.mul 63 40 capacity
  return ix.getBoundaryProtectedRangesTimeWindow cx cy cz radius startSecs endSecs depthBits

/-- The seconds of the epoch `e` meet the window. -/
def MeetsWindow (e : ℕ) : Prop :=
  e * ix.epochDuration ≤ endSecs ∧ startSecs < (e + 1) * ix.epochDuration

/-- The planner panics nowhere, the epochs of its ranges are those that meet the window, and it
pairs each of them with every prefix of the box and no other. -/
structure PlansWindow (ranges : List (Key × Key)) : Prop where
  computes : ix.checkedTimeWindow cx cy cz radius startSecs endSecs depthBits = some ranges
  epochs : ∀ e : ℕ, (∃ range ∈ ranges, range.1.epoch.val = e) ↔ ix.MeetsWindow startSecs endSecs e
  pairs : ∀ e p : ℕ, (∃ range ∈ ranges, range.1.epoch.val = e ∧ range.2.epoch.val = e ∧
      range.1.morton = p ∧ range.2.morton = p ||| (1 <<< (64 - depthBits) - 1)) ↔
    ix.MeetsWindow startSecs endSecs e ∧ p ∈ ix.computeSpatialPrefixes cx cy cz radius depthBits

variable {ix cx cy cz radius startSecs endSecs depthBits}

theorem meetsWindow_iff {e : ℕ} : ix.MeetsWindow startSecs endSecs e ↔
    startSecs / ix.epochDuration ≤ e ∧ e ≤ endSecs / ix.epochDuration := by
  have hd := ix.epochDuration_pos
  rw [MeetsWindow, ← Nat.le_div_iff_mul_le hd, ← Nat.div_lt_iff_lt_mul hd, Nat.lt_succ_iff,
    and_comm]

/-- Where the checked planner has a result. -/
theorem checkedTimeWindow_eq_some {ranges : List (Key × Key)} :
    ix.checkedTimeWindow cx cy cz radius startSecs endSecs depthBits = some ranges ↔
      (PlannerDepth depthBits ∧ startSecs ≤ endSecs ∧
        startSecs / ix.epochDuration % 2 ^ 32 ≤ endSecs / ix.epochDuration % 2 ^ 32 ∧
        endSecs / ix.epochDuration % 2 ^ 32 - startSecs / ix.epochDuration % 2 ^ 32 + 1 < 2 ^ 32 ∧
        40 * ((ix.computeSpatialPrefixes cx cy cz radius depthBits).length *
          (endSecs / ix.epochDuration % 2 ^ 32 - startSecs / ix.epochDuration % 2 ^ 32 + 1)) <
            2 ^ 63) ∧
      ix.getBoundaryProtectedRangesTimeWindow cx cy cz radius startSecs endSecs depthBits =
        ranges := by
  simp only [checkedTimeWindow, Option.bind_eq_bind, Option.bind_eq_some_iff, Checked.add_eq_some,
    Checked.mul_eq_some, Checked.sub_eq_some, Option.guard_eq_some', Option.pure_def,
    Option.some.injEq, Fin.ofNat]
  constructor
  · rintro ⟨-, hd, -, hle, _, ⟨-, rfl⟩, _, ⟨-, rfl⟩, _, ⟨h₁, rfl⟩, _, ⟨h₂, rfl⟩, _, ⟨-, rfl⟩, _,
      ⟨h₃, rfl⟩, h⟩
    exact ⟨⟨hd, hle, h₁, h₂, h₃⟩, h⟩
  · rintro ⟨⟨hd, hle, h₁, h₂, h₃⟩, h⟩
    exact ⟨(), hd, (), hle, _, ⟨secs_mod_mul_lt startSecs, rfl⟩, _, ⟨secs_mod_mul_lt endSecs, rfl⟩,
      _, ⟨h₁, rfl⟩, _, ⟨h₂, rfl⟩, _, ⟨by omega, rfl⟩, _, ⟨h₃, rfl⟩, h⟩

/-- The codes at the ends of a planned range. -/
theorem timeWindowRange_fields (ix : HybridSpatioTemporalIndexer) (startSecs endSecs : ℕ)
    (e : Epoch) {p : ℕ} (hp : IsPrefix depthBits p) :
    (ix.timeWindowRange startSecs endSecs depthBits e p).1.epoch = e ∧
      (ix.timeWindowRange startSecs endSecs depthBits e p).2.epoch = e ∧
      (ix.timeWindowRange startSecs endSecs depthBits e p).1.morton = p ∧
      (ix.timeWindowRange startSecs endSecs depthBits e p).2.morton =
        p ||| (1 <<< (64 - depthBits) - 1) := by
  refine ⟨Key.epoch_ofFields .., Key.epoch_ofFields .., ?_, ?_⟩
  · exact (Key.morton_ofFields ..).trans (Nat.mod_eq_of_lt hp.lt)
  · refine (Key.morton_ofFields ..).trans (Nat.mod_eq_of_lt ?_)
    rw [hp.or_mask]
    exact hp.add_mask_lt

/-- A box around its centre meets a cell. -/
theorem computeSpatialPrefixes_ne_nil (hr : 0 ≤ radius) (hd : depthBits % 3 = 0)
    (hle : depthBits ≤ 63) : ix.computeSpatialPrefixes cx cy cz radius depthBits ≠ [] := by
  have hbox : ∀ c : ℚ, ix.normalizeCoordinate (c - radius) ≤ ix.normalizeCoordinate c ∧
      ix.normalizeCoordinate c ≤ ix.normalizeCoordinate (c + radius) := fun c =>
    ⟨normalizeCoordinate_mono ix (by linarith), normalizeCoordinate_mono ix (by linarith)⟩
  exact List.ne_nil_of_mem (mem_computeSpatialPrefixes hd hle (hbox cx) (hbox cy) (hbox cz))

/-- **A planner that covers its window** met a cell, cut no epoch and counted without overflow. -/
theorem PlansWindow.bounds {ranges : List (Key × Key)}
    (h : PlansWindow ix cx cy cz radius startSecs endSecs depthBits ranges) :
    ix.computeSpatialPrefixes cx cy cz radius depthBits ≠ [] ∧
      endSecs / ix.epochDuration < 2 ^ 32 ∧
      endSecs / ix.epochDuration - startSecs / ix.epochDuration + 1 < 2 ^ 32 ∧
      40 * ((ix.computeSpatialPrefixes cx cy cz radius depthBits).length *
        (endSecs / ix.epochDuration - startSecs / ix.epochDuration + 1)) < 2 ^ 63 := by
  obtain ⟨⟨-, hle, -, h₂, h₃⟩, hranges⟩ := checkedTimeWindow_eq_some.1 h.computes
  have hmono := Nat.div_le_div_right (c := ix.epochDuration) hle
  -- the last epoch of the window is among those of the ranges
  obtain ⟨range, hmem, he⟩ := (h.epochs _).2 (meetsWindow_iff.2 ⟨hmono, le_rfl⟩)
  have hlast : endSecs / ix.epochDuration < 2 ^ 32 := by
    rw [← he]
    exact range.1.epoch.isLt
  rw [Nat.mod_eq_of_lt hlast, Nat.mod_eq_of_lt (hmono.trans_lt hlast)] at h₂ h₃
  rw [← hranges, mem_timeWindowRanges] at hmem
  obtain ⟨_, -, -, p, hp, -⟩ := hmem
  exact ⟨List.ne_nil_of_mem hp, hlast, h₂, h₃⟩

/-- Within these bounds the planner covers its window. -/
theorem plansWindow_of_bounds (hd : PlannerDepth depthBits) (hle : startSecs ≤ endSecs)
    (hne : ix.computeSpatialPrefixes cx cy cz radius depthBits ≠ [])
    (hlast : endSecs / ix.epochDuration < 2 ^ 32)
    (hcount : endSecs / ix.epochDuration - startSecs / ix.epochDuration + 1 < 2 ^ 32)
    (hcapacity : 40 * ((ix.computeSpatialPrefixes cx cy cz radius depthBits).length *
      (endSecs / ix.epochDuration - startSecs / ix.epochDuration + 1)) < 2 ^ 63) :
    PlansWindow ix cx cy cz radius startSecs endSecs depthBits
      (ix.getBoundaryProtectedRangesTimeWindow cx cy cz radius startSecs endSecs depthBits) := by
  have hmono := Nat.div_le_div_right (c := ix.epochDuration) hle
  have hs := Nat.mod_eq_of_lt (hmono.trans_lt hlast)
  have ht := Nat.mod_eq_of_lt hlast
  have hmem : ∀ range, range ∈ ix.getBoundaryProtectedRangesTimeWindow cx cy cz radius startSecs
      endSecs depthBits ↔ ∃ e : Epoch, ix.MeetsWindow startSecs endSecs e.val ∧
        ∃ p ∈ ix.computeSpatialPrefixes cx cy cz radius depthBits,
          range = ix.timeWindowRange startSecs endSecs depthBits e p := by
    intro range
    simp only [mem_timeWindowRanges, hs, ht, meetsWindow_iff, and_assoc]
  have hepoch : ∀ e, ix.MeetsWindow startSecs endSecs e → e < 2 ^ 32 := fun e he =>
    (meetsWindow_iff.1 he).2.trans_lt hlast
  refine ⟨checkedTimeWindow_eq_some.2 ⟨?_, rfl⟩, fun e => ?_, fun e p => ?_⟩
  · rw [hs, ht]
    exact ⟨hd, hle, hmono, hcount, hcapacity⟩
  · constructor
    · rintro ⟨range, hr, rfl⟩
      obtain ⟨e, he, p, hp, rfl⟩ := (hmem range).1 hr
      rwa [(ix.timeWindowRange_fields startSecs endSecs e
        (isPrefix_of_mem_computeSpatialPrefixes hp)).1]
    · intro he
      obtain ⟨p, hp⟩ := List.exists_mem_of_ne_nil _ hne
      have hfields := ix.timeWindowRange_fields startSecs endSecs ⟨e, hepoch e he⟩
        (isPrefix_of_mem_computeSpatialPrefixes hp)
      exact ⟨_, (hmem _).2 ⟨⟨e, hepoch e he⟩, he, p, hp, rfl⟩, congrArg Fin.val hfields.1⟩
  · constructor
    · rintro ⟨range, hr, rfl, -, rfl, -⟩
      obtain ⟨e, he, p, hp, rfl⟩ := (hmem range).1 hr
      obtain ⟨h₁, -, h₃, -⟩ := ix.timeWindowRange_fields startSecs endSecs e
        (isPrefix_of_mem_computeSpatialPrefixes hp)
      rw [h₁, h₃]
      exact ⟨he, hp⟩
    · rintro ⟨he, hp⟩
      obtain ⟨h₁, h₂, h₃, h₄⟩ := ix.timeWindowRange_fields startSecs endSecs ⟨e, hepoch e he⟩
        (isPrefix_of_mem_computeSpatialPrefixes hp)
      exact ⟨_, (hmem _).2 ⟨⟨e, hepoch e he⟩, he, p, hp, rfl⟩, congrArg Fin.val h₁,
        congrArg Fin.val h₂, h₃, h₄⟩

/-- **When the planner covers its window**: the box meets a cell, the epochs of the window fit into
32 bits and are not all of them, and the ranges fit into a vector. -/
theorem plansWindow_iff (ix : HybridSpatioTemporalIndexer) (cx cy cz radius : ℚ)
    (hd : PlannerDepth depthBits) (hle : startSecs ≤ endSecs) :
    (∃ ranges, PlansWindow ix cx cy cz radius startSecs endSecs depthBits ranges) ↔
      ix.computeSpatialPrefixes cx cy cz radius depthBits ≠ [] ∧
        endSecs / ix.epochDuration < 2 ^ 32 ∧
        endSecs / ix.epochDuration - startSecs / ix.epochDuration + 1 < 2 ^ 32 ∧
        40 * ((ix.computeSpatialPrefixes cx cy cz radius depthBits).length *
          (endSecs / ix.epochDuration - startSecs / ix.epochDuration + 1)) < 2 ^ 63 := by
  constructor
  · rintro ⟨ranges, h⟩
    exact h.bounds
  · rintro ⟨hne, hlast, hcount, hcapacity⟩
    exact ⟨_, plansWindow_of_bounds hd hle hne hlast hcount hcapacity⟩

theorem plansWindow_sample : ∃ ranges, PlansWindow testIndexer 0 0 0 1 3600 7300 15 ranges := by
  refine (plansWindow_iff testIndexer 0 0 0 1 (by decide) (by norm_num)).2 ⟨?_, ?_, ?_, ?_⟩
  · decide +kernel
  · norm_num [testIndexer]
  · norm_num [testIndexer]
  · have hcells : (testIndexer.computeSpatialPrefixes 0 0 0 1 15).length = 8 := by decide +kernel
    rw [hcells]
    norm_num [testIndexer]

/-- A window that ends one epoch beyond the last is not planned. -/
theorem not_plansWindow_far :
    ¬ ∃ ranges, PlansWindow testIndexer 0 0 0 1 0 15461882265600 15 ranges := by
  rintro ⟨ranges, h⟩
  have hlast := h.bounds.2.1
  norm_num [testIndexer] at hlast

end HybridSpatioTemporalIndexer

end InterstellarDb
