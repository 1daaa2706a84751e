import Std.Data.ExtTreeSet
import Mathlib.Data.Nat.Log
import InterstellarDb.Index.Indexer

/-!
# Range planning

The planner covers a ball by Morton cells of one depth. `computeSpatialPrefixes` walks the grid
over the bounding box and collects the prefixes of the cells it meets, and
`getBoundaryProtectedRangesTimeWindow` stamps them onto the epochs of a time window, the time
field clamped in the first and the last epoch.

* A grid point in the box has its cell among the prefixes (`mem_computeSpatialPrefixes`).
* A key of a planned cell and epoch is covered unless its time field is cut off at the least or
  the greatest Morton code of its cell (`covers_timeWindowRange`).
* No key is covered twice (`disjoint_timeWindowRanges`).
-/

namespace InterstellarDb

open Std

namespace HybridSpatioTemporalIndexer

variable (ix : HybridSpatioTemporalIndexer)

/-- `calculate_optimal_depth`. The logarithm of `1 / 0` is infinite and saturates. -/
def calculateOptimalDepth (radius : ℚ) : ℕ :=
  let fraction := radius * 2 / (ix.maxRange * 2)
  if 1 ≤ fraction then 3
  else
    let subdivisions := if fraction = 0 then 2 ^ 64 - 1 else Nat.log 2 ⌊1 / fraction⌋₊
    let axisBits := max 1 (min subdivisions 21)
    axisBits * 3

/-- The values of a `while v <= max { ..; v += step }` loop, which stops short of overflow. -/
def gridSteps (max step : ℕ) : ℕ → ℕ → List ℕ
  | 0, _ => []
  | fuel + 1, v =>
    if v ≤ max then v :: if v > 2 ^ 32 - 1 - step then [] else gridSteps max step fuel (v + step)
    else []

/-- One axis of the walk: from the lower end of the interval, snapped to a cell boundary, to its
upper end. -/
def axisSteps (center radius : ℚ) (axisShift : ℕ) : List ℕ :=
  let nMin := ix.normalizeCoordinate (center - radius)
  let nMax := ix.normalizeCoordinate (center + radius)
  let step := 1 <<< axisShift
  let v₀ := (nMin >>> axisShift) <<< axisShift
  gridSteps nMax step (nMax + 1) v₀

/-- `compute_spatial_prefixes`, in ascending order. -/
def computeSpatialPrefixes (centerX centerY centerZ radius : ℚ) (depthBits : ℕ) : List ℕ :=
  let axisShift := 21 - depthBits / 3
  let xs := ix.axisSteps centerX radius axisShift
  let ys := ix.axisSteps centerY radius axisShift
  let zs := ix.axisSteps centerZ radius axisShift
  let prefixes : ExtTreeSet ℕ := xs.foldl (fun s x => ys.foldl (fun s y => zs.foldl (fun s z =>
    s.insert (prefixAt (encode3dMorton x y z) depthBits)) s) s) ∅
  prefixes.toList

/-- `get_boundary_protected_ranges`. -/
def getBoundaryProtectedRanges (centerX centerY centerZ radius : ℚ)
    (timestampSecs depthBits : ℕ) : List (Key × Key) :=
  let epoch : Epoch := Fin.ofNat (2 ^ 32) (timestampSecs / ix.epochDuration)
  let spatialMask := 1 <<< (64 - depthBits) - 1
  (ix.computeSpatialPrefixes centerX centerY centerZ radius depthBits).map fun p =>
    (.ofFields epoch p 0, .ofFields epoch (p ||| spatialMask) (2 ^ 64 - 1))

/-- `get_boundary_protected_ranges_time_window`; the source refuses a window that ends before it
starts. -/
def getBoundaryProtectedRangesTimeWindow (centerX centerY centerZ radius : ℚ)
    (startSecs endSecs depthBits : ℕ) : List (Key × Key) :=
  let d := ix.epochDuration
  let startEpoch : Epoch := Fin.ofNat (2 ^ 32) (startSecs / d)
  let endEpoch : Epoch := Fin.ofNat (2 ^ 32) (endSecs / d)
  let startNano := startSecs % d * nanosPerSec
  let endNano := endSecs % d * nanosPerSec
  let spatialMask := 1 <<< (64 - depthBits) - 1
  let prefixes := ix.computeSpatialPrefixes centerX centerY centerZ radius depthBits
  let epochs := (List.range' startEpoch.val (endEpoch.val + 1 - startEpoch.val)).map
    (Fin.ofNat (2 ^ 32))
  epochs.flatMap fun epoch =>
    let tLo := if epoch = startEpoch then startNano else 0
    let tHi := if epoch = endEpoch then endNano else 2 ^ 64 - 1
    prefixes.map fun p =>
      (.ofFields epoch p tLo, .ofFields epoch (p ||| spatialMask) tHi)

/-! ## Depth -/

variable {ix}

theorem three_le_calculateOptimalDepth (radius : ℚ) : 3 ≤ ix.calculateOptimalDepth radius := by
  unfold calculateOptimalDepth
  dsimp only
  split_ifs <;> omega

theorem calculateOptimalDepth_le (radius : ℚ) : ix.calculateOptimalDepth radius ≤ 63 := by
  unfold calculateOptimalDepth
  dsimp only
  split_ifs <;> omega

theorem calculateOptimalDepth_mod (radius : ℚ) : ix.calculateOptimalDepth radius % 3 = 0 := by
  unfold calculateOptimalDepth
  dsimp only
  split_ifs <;> omega

/-! ## Cells of the box -/

/-- The loop visits every value it should. -/
theorem mem_gridSteps {max step : ℕ} (h : max + step < 2 ^ 32) {fuel v i : ℕ} (hi : i < fuel)
    (hle : v + i * step ≤ max) : v + i * step ∈ gridSteps max step fuel v := by
  induction fuel generalizing v i with
  | zero => omega
  | succ fuel ih =>
    have hv : v ≤ max := by omega
    rw [gridSteps, if_pos hv, if_neg (by omega)]
    cases i with
    | zero => simp
    | succ i =>
      have hsum : v + (i + 1) * step = v + step + i * step := by ring
      rw [hsum] at hle ⊢
      exact List.mem_cons_of_mem _ (ih (by omega) hle)

/-- Every grid coordinate of the interval has its cell boundary among the steps. -/
theorem snap_mem_axisSteps {center radius : ℚ} {axisShift n : ℕ} (hs : axisShift ≤ 21)
    (hmin : ix.normalizeCoordinate (center - radius) ≤ n)
    (hmax : n ≤ ix.normalizeCoordinate (center + radius)) :
    (n >>> axisShift) <<< axisShift ∈ ix.axisSteps center radius axisShift := by
  have hpos : 0 < 2 ^ axisShift := Nat.two_pow_pos _
  have hstep : 2 ^ axisShift ≤ 2 ^ 21 := Nat.pow_le_pow_right (by norm_num) hs
  have hlt : ix.normalizeCoordinate (center + radius) < 2 ^ 21 := normalizeCoordinate_lt _
  have hdiv := Nat.div_le_div_right (c := 2 ^ axisShift) hmin
  have hle : n / 2 ^ axisShift * 2 ^ axisShift ≤ n := Nat.div_mul_le_self _ _
  obtain ⟨i, hi⟩ := Nat.exists_eq_add_of_le hdiv
  unfold axisSteps
  simp only [Nat.shiftLeft_eq, Nat.shiftRight_eq_div_pow, Nat.one_mul]
  rw [hi, add_mul] at hle ⊢
  refine mem_gridSteps (by omega) ?_ (by omega)
  have := Nat.le_mul_of_pos_right i hpos
  omega

theorem mem_foldl_insert {α : Type} (l : List α) (g : α → ExtTreeSet ℕ → ExtTreeSet ℕ)
    (P : α → ℕ → Prop) (hg : ∀ a s p, p ∈ g a s ↔ p ∈ s ∨ P a p) (s : ExtTreeSet ℕ) (p : ℕ) :
    p ∈ l.foldl (fun s a => g a s) s ↔ p ∈ s ∨ ∃ a ∈ l, P a p := by
  induction l generalizing s with
  | nil => simp
  | cons a l ih =>
    rw [List.foldl_cons, ih, hg, or_assoc]
    simp

/-- The prefixes are those of the points that the walk visits. -/
theorem mem_computeSpatialPrefixes_iff {cx cy cz radius : ℚ} {depthBits p : ℕ} :
    p ∈ ix.computeSpatialPrefixes cx cy cz radius depthBits ↔
      ∃ x ∈ ix.axisSteps cx radius (21 - depthBits / 3),
        ∃ y ∈ ix.axisSteps cy radius (21 - depthBits / 3),
          ∃ z ∈ ix.axisSteps cz radius (21 - depthBits / 3),
            p = prefixAt (encode3dMorton x y z) depthBits := by
  unfold computeSpatialPrefixes
  dsimp only
  rw [ExtTreeSet.mem_toList, mem_foldl_insert _ _ fun x p =>
    ∃ y ∈ ix.axisSteps cy radius (21 - depthBits / 3),
      ∃ z ∈ ix.axisSteps cz radius (21 - depthBits / 3),
        p = prefixAt (encode3dMorton x y z) depthBits]
  · simp
  intro x s p
  rw [mem_foldl_insert _ _ fun y p =>
    ∃ z ∈ ix.axisSteps cz radius (21 - depthBits / 3),
      p = prefixAt (encode3dMorton x y z) depthBits]
  intro y s p
  rw [mem_foldl_insert _ _ fun z p => p = prefixAt (encode3dMorton x y z) depthBits]
  intro z s p
  simp only [ExtTreeSet.mem_insert, LawfulEqCmp.compare_eq_iff_eq]
  rw [or_comm, eq_comm]

/-- The prefixes ascend. -/
theorem pairwise_computeSpatialPrefixes (ix : HybridSpatioTemporalIndexer)
    (cx cy cz radius : ℚ) (depthBits : ℕ) :
    (ix.computeSpatialPrefixes cx cy cz radius depthBits).Pairwise (· < ·) := by
  refine List.Pairwise.imp (fun {a b} h => ?_) ExtTreeSet.ordered_toList
  exact Nat.compare_eq_lt.1 h

theorem nodup_computeSpatialPrefixes (cx cy cz radius : ℚ) (depthBits : ℕ) :
    (ix.computeSpatialPrefixes cx cy cz radius depthBits).Nodup :=
  (ix.pairwise_computeSpatialPrefixes cx cy cz radius depthBits).imp Nat.ne_of_lt

theorem isPrefix_of_mem_computeSpatialPrefixes {cx cy cz radius : ℚ} {depthBits p : ℕ}
    (h : p ∈ ix.computeSpatialPrefixes cx cy cz radius depthBits) : IsPrefix depthBits p := by
  obtain ⟨x, -, y, -, z, -, rfl⟩ := mem_computeSpatialPrefixes_iff.1 h
  exact isPrefix_prefixAt ((encode3dMorton_lt x y z).trans (by norm_num)) _

/-- **Every grid point of the box has its cell among the prefixes.** -/
theorem mem_computeSpatialPrefixes {cx cy cz radius : ℚ} {depthBits nx ny nz : ℕ}
    (hd : depthBits % 3 = 0) (hle : depthBits ≤ 63)
    (hx : ix.normalizeCoordinate (cx - radius) ≤ nx ∧ nx ≤ ix.normalizeCoordinate (cx + radius))
    (hy : ix.normalizeCoordinate (cy - radius) ≤ ny ∧ ny ≤ ix.normalizeCoordinate (cy + radius))
    (hz : ix.normalizeCoordinate (cz - radius) ≤ nz ∧ nz ≤ ix.normalizeCoordinate (cz + radius)) :
    prefixAt (encode3dMorton nx ny nz) depthBits ∈
      ix.computeSpatialPrefixes cx cy cz radius depthBits := by
  have hsnap : ∀ n, n >>> (21 - depthBits / 3) =
      ((n >>> (21 - depthBits / 3)) <<< (21 - depthBits / 3)) >>> (21 - depthBits / 3) :=
    fun n => (Nat.shiftLeft_shiftRight _ _).symm
  refine mem_computeSpatialPrefixes_iff.2
    ⟨_, snap_mem_axisSteps (Nat.sub_le _ _) hx.1 hx.2, _,
      snap_mem_axisSteps (Nat.sub_le _ _) hy.1 hy.2, _,
      snap_mem_axisSteps (Nat.sub_le _ _) hz.1 hz.2, ?_⟩
  exact prefixAt_encode3dMorton hd hle (hsnap nx) (hsnap ny) (hsnap nz)

/-! ## Time windows -/

section TimeWindow

variable {cx cy cz radius : ℚ} {startSecs endSecs depthBits : ℕ}

/-- A key between the two keys of a range, both included. -/
def Covers (range : Key × Key) (k : Key) : Prop :=
  range.1.toNat ≤ k.toNat ∧ k.toNat ≤ range.2.toNat

/-- The least time field of the planned ranges of an epoch. -/
def timeLo (ix : HybridSpatioTemporalIndexer) (startSecs : ℕ) (e : Epoch) : ℕ :=
  if e = Fin.ofNat (2 ^ 32) (startSecs / ix.epochDuration) then
    startSecs % ix.epochDuration * nanosPerSec
  else 0

/-- The greatest time field of the planned ranges of an epoch. -/
def timeHi (ix : HybridSpatioTemporalIndexer) (endSecs : ℕ) (e : Epoch) : ℕ :=
  if e = Fin.ofNat (2 ^ 32) (endSecs / ix.epochDuration) then
    endSecs % ix.epochDuration * nanosPerSec
  else 2 ^ 64 - 1

/-- The planned range of a cell in an epoch. -/
def timeWindowRange (ix : HybridSpatioTemporalIndexer) (startSecs endSecs depthBits : ℕ)
    (e : Epoch) (p : ℕ) : Key × Key :=
  (.ofFields e p (ix.timeLo startSecs e),
    .ofFields e (p ||| (1 <<< (64 - depthBits) - 1)) (ix.timeHi endSecs e))

theorem timeWindowRanges_eq :
    ix.getBoundaryProtectedRangesTimeWindow cx cy cz radius startSecs endSecs depthBits =
      ((List.range' (startSecs / ix.epochDuration % 2 ^ 32)
        (endSecs / ix.epochDuration % 2 ^ 32 + 1 - startSecs / ix.epochDuration % 2 ^ 32)).map
          (Fin.ofNat (2 ^ 32))).flatMap fun e =>
        (ix.computeSpatialPrefixes cx cy cz radius depthBits).map
          (ix.timeWindowRange startSecs endSecs depthBits e) := rfl

theorem secs_mod_mul_lt (secs : ℕ) :
    secs % ix.epochDuration * nanosPerSec < 2 ^ 64 := by
  have h₁ := Nat.mod_lt secs ix.epochDuration_pos
  have h₂ := ix.epochDuration_lt
  unfold nanosPerSec
  omega

theorem timeLo_lt (e : Epoch) : ix.timeLo startSecs e < 2 ^ 64 := by
  unfold timeLo
  split_ifs
  · exact secs_mod_mul_lt startSecs
  · norm_num

theorem timeHi_lt (e : Epoch) : ix.timeHi endSecs e < 2 ^ 64 := by
  unfold timeHi
  split_ifs
  · exact secs_mod_mul_lt endSecs
  · norm_num

/-- **What a planned range covers**: the keys of the cell, except those cut off by the time
fields at the two ends of the cell. -/
theorem covers_timeWindowRange {e : Epoch} {p : ℕ} (hp : IsPrefix depthBits p) (k : Key) :
    Covers (ix.timeWindowRange startSecs endSecs depthBits e p) k ↔
      InCell e depthBits p k ∧ (k.morton = p → ix.timeLo startSecs e ≤ k.offset) ∧
        (k.morton = p + (2 ^ (64 - depthBits) - 1) → k.offset ≤ ix.timeHi endSecs e) := by
  have hm := k.morton_lt
  have ho := k.offset_lt
  have hp' := hp.lt
  have hmask := hp.add_mask_lt
  have hlo : ix.timeLo startSecs e < 2 ^ 64 := timeLo_lt e
  have hhi : ix.timeHi endSecs e < 2 ^ 64 := timeHi_lt e
  simp only [Covers, timeWindowRange, InCell, hp.prefixAt_eq_iff, hp.or_mask, Key.toNat_eq,
    Key.epoch_ofFields, Key.morton_ofFields, Key.offset_ofFields, Nat.mod_eq_of_lt hp',
    Nat.mod_eq_of_lt hmask, Nat.mod_eq_of_lt hlo, Nat.mod_eq_of_lt hhi, Fin.ext_iff]
  generalize 2 ^ (64 - depthBits) - 1 = mask at *
  generalize ix.timeLo startSecs e = lo at *
  generalize ix.timeHi endSecs e = hi at *
  omega

/-- The planned ranges: one for every epoch of the window and every cell of the box. -/
theorem mem_timeWindowRanges {range : Key × Key} :
    range ∈ ix.getBoundaryProtectedRangesTimeWindow cx cy cz radius startSecs endSecs depthBits ↔
      ∃ e : Epoch, startSecs / ix.epochDuration % 2 ^ 32 ≤ e.val ∧
        e.val ≤ endSecs / ix.epochDuration % 2 ^ 32 ∧
        ∃ p ∈ ix.computeSpatialPrefixes cx cy cz radius depthBits,
          range = ix.timeWindowRange startSecs endSecs depthBits e p := by
  have hlt : endSecs / ix.epochDuration % 2 ^ 32 < 2 ^ 32 := Nat.mod_lt _ (by norm_num)
  rw [timeWindowRanges_eq]
  simp only [List.mem_flatMap, List.mem_map, List.mem_range'_1]
  constructor
  · rintro ⟨_, ⟨n, hn, rfl⟩, p, hp, rfl⟩
    have hval : ((Fin.ofNat (2 ^ 32) n : Epoch) : ℕ) = n := Nat.mod_eq_of_lt (by omega)
    exact ⟨_, by omega, by omega, p, hp, rfl⟩
  · rintro ⟨e, h₁, h₂, p, hp, rfl⟩
    refine ⟨e, ⟨e.val, by omega, ?_⟩, p, hp, rfl⟩
    exact Fin.ext (Nat.mod_eq_of_lt e.isLt)

/-- **The planned ranges are disjoint**: no key lies in two of them. -/
theorem disjoint_timeWindowRanges :
    (ix.getBoundaryProtectedRangesTimeWindow cx cy cz radius startSecs endSecs
      depthBits).Pairwise fun a b => ∀ k, Covers a k → ¬ Covers b k := by
  have hcell : ∀ e p k, p ∈ ix.computeSpatialPrefixes cx cy cz radius depthBits →
      Covers (ix.timeWindowRange startSecs endSecs depthBits e p) k → InCell e depthBits p k :=
    fun e p k hp h => ((covers_timeWindowRange
      (isPrefix_of_mem_computeSpatialPrefixes hp) k).1 h).1
  have hlt : endSecs / ix.epochDuration % 2 ^ 32 < 2 ^ 32 := Nat.mod_lt _ (by norm_num)
  rw [timeWindowRanges_eq, List.pairwise_flatMap]
  constructor
  · intro e _
    rw [List.pairwise_map]
    refine List.Pairwise.imp_of_mem (fun {p q} hp hq hpq k h h' => ?_)
      (nodup_computeSpatialPrefixes cx cy cz radius depthBits)
    exact hpq ((hcell e p k hp h).2.symm.trans (hcell e q k hq h').2)
  · rw [List.pairwise_map]
    refine List.Pairwise.imp_of_mem (fun {m n} hm hn hmn => ?_) List.pairwise_lt_range'
    simp only [List.mem_map]
    rintro _ ⟨p, hp, rfl⟩ _ ⟨q, hq, rfl⟩ k h h'
    have he := (hcell _ p k hp h).1.symm.trans (hcell _ q k hq h').1
    rw [List.mem_range'_1] at hm hn
    have := congrArg Fin.val he
    simp only [Fin.ofNat] at this
    rw [Nat.mod_eq_of_lt (by omega), Nat.mod_eq_of_lt (by omega)] at this
    omega

end TimeWindow

end HybridSpatioTemporalIndexer

end InterstellarDb
