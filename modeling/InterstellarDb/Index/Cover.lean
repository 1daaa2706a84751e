import InterstellarDb.Foundations.Checked
import InterstellarDb.Index.Grid
import InterstellarDb.Index.Ranges

/-!
# Cell enumeration

`checkedSpatialPrefixes` is the walk of `compute_spatial_prefixes` as the source nests it, with its
unsigned arithmetic checked and its loops on fuel.

* The walk terminates and overflows nowhere (`checkedSpatialPrefixes_eq`).
* It returns the cells of the points in the box, and no others
  (`mem_computeSpatialPrefixes_iff_inBox`), in ascending order.
-/

namespace InterstellarDb

open Std

namespace HybridSpatioTemporalIndexer

variable (ix : HybridSpatioTemporalIndexer)

/-! ## The walk, checked -/

/-- `let mut v = v0; while v <= max { body; if v > u32::MAX - step { break; } v += step; }` on a
state that the body changes; no result when the fuel runs out. -/
def checkedLoop {σ : Type} (max step : ℕ) (body : ℕ → σ → Option σ) : ℕ → ℕ → σ → Option σ
  | 0, _, _ => none
  | fuel + 1, v, s =>
    if v ≤ max then do
      let s' ← body v s
      let last ← Checked.sub (2 ^ 32 - 1) step
      if v > last then return s'
      checkedLoop max step body fuel (← Checked.add 32 v step) s'
    else return s

/-- `compute_spatial_prefixes` with its arithmetic checked and `fuel` rounds for each loop. -/
def checkedSpatialPrefixes (fuel : ℕ) (centerX centerY centerZ radius : ℚ) (depthBits : ℕ) :
    Option (List ℕ) := do
  let shift ← Checked.shift 64 (← Checked.sub 64 depthBits)
  let nxMin := ix.normalizeCoordinate (centerX - radius)
  let nxMax := ix.normalizeCoordinate (centerX + radius)
  let nyMin := ix.normalizeCoordinate (centerY - radius)
  let nyMax := ix.normalizeCoordinate (centerY + radius)
  let nzMin := ix.normalizeCoordinate (centerZ - radius)
  let nzMax := ix.normalizeCoordinate (centerZ + radius)
  let axisBits := depthBits / 3
  let axisShift ← Checked.shift 32 (← Checked.sub 21 axisBits)
  let step := 1 <<< axisShift
  let x₀ := (nxMin >>> axisShift) <<< axisShift
  let y₀ := (nyMin >>> axisShift) <<< axisShift
  let z₀ := (nzMin >>> axisShift) <<< axisShift
  let prefixes : ExtTreeSet ℕ ←
    checkedLoop nxMax step (fun x =>
      checkedLoop nyMax step (fun y =>
        checkedLoop nzMax step (fun z prefixes =>
          let m := encode3dMorton x y z
          return prefixes.insert ((m >>> shift) <<< shift)) fuel z₀) fuel y₀) fuel x₀ ∅
  return prefixes.toList

variable {ix}

/-- **A loop that stays below the overflow** visits the grid steps, whatever fuel it has left. -/
theorem checkedLoop_eq {σ : Type} {max step : ℕ} (hstep : 0 < step) (h : max + step < 2 ^ 32)
    {body : ℕ → σ → Option σ} {g : σ → ℕ → σ} (hbody : ∀ v s, body v s = some (g s v))
    {fuel fuel' v : ℕ} (hfuel : max < v + fuel) (hfuel' : max < v + fuel') (s : σ) :
    checkedLoop max step body (fuel + 1) v s =
      some ((gridSteps max step fuel' v).foldl g s) := by
  induction fuel generalizing fuel' v s with
  | zero =>
    have hv : ¬ v ≤ max := by omega
    cases fuel' with
    | zero =>
      rw [checkedLoop, if_neg hv, gridSteps]
      rfl
    | succ fuel' =>
      rw [checkedLoop, if_neg hv, gridSteps, if_neg hv]
      rfl
  | succ fuel ih =>
    by_cases hv : v ≤ max
    · obtain ⟨n, rfl⟩ : ∃ n, fuel' = n + 1 := ⟨fuel' - 1, by omega⟩
      have hlast : Checked.sub (2 ^ 32 - 1) step = some (2 ^ 32 - 1 - step) :=
        Checked.sub_eq_some.2 ⟨by omega, rfl⟩
      have hnext : Checked.add 32 v step = some (v + step) :=
        Checked.add_eq_some.2 ⟨by omega, rfl⟩
      have hmore : ¬ v > 2 ^ 32 - 1 - step := by omega
      rw [checkedLoop, gridSteps]
      simp only [if_pos hv, hbody, hlast, hnext, Option.bind_eq_bind, Option.bind_some,
        if_neg hmore, List.foldl_cons]
      exact ih (by omega) (by omega) _
    · have hnil : gridSteps max step fuel' v = [] := by
        cases fuel' with
        | zero => rfl
        | succ n => rw [gridSteps, if_neg hv]
      rw [checkedLoop, if_neg hv, hnil]
      rfl

/-- **The walk terminates and overflows nowhere**: with more than `2 ^ 21` rounds for each loop it
gives the prefixes. -/
theorem checkedSpatialPrefixes_eq {cx cy cz radius : ℚ} {depthBits fuel : ℕ} (h3 : 3 ≤ depthBits)
    (hle : depthBits ≤ 63) (hfuel : 2 ^ 21 < fuel) :
    ix.checkedSpatialPrefixes fuel cx cy cz radius depthBits =
      some (ix.computeSpatialPrefixes cx cy cz radius depthBits) := by
  have h₁ : Checked.sub 64 depthBits = some (64 - depthBits) :=
    Checked.sub_eq_some.2 ⟨by omega, rfl⟩
  have h₂ : Checked.shift 64 (64 - depthBits) = some (64 - depthBits) :=
    Checked.shift_eq_some.2 ⟨by omega, rfl⟩
  have h₃ : Checked.sub 21 (depthBits / 3) = some (21 - depthBits / 3) :=
    Checked.sub_eq_some.2 ⟨by omega, rfl⟩
  have h₄ : Checked.shift 32 (21 - depthBits / 3) = some (21 - depthBits / 3) :=
    Checked.shift_eq_some.2 ⟨by omega, rfl⟩
  obtain ⟨n, rfl⟩ : ∃ n, fuel = n + 1 := ⟨fuel - 1, by omega⟩
  have hstep : 0 < 1 <<< (21 - depthBits / 3) := by
    rw [Nat.shiftLeft_eq, Nat.one_mul]
    exact Nat.two_pow_pos _
  have hbound : 1 <<< (21 - depthBits / 3) ≤ 2 ^ 21 := by
    rw [Nat.shiftLeft_eq, Nat.one_mul]
    exact Nat.pow_le_pow_right (by norm_num) (Nat.sub_le _ _)
  -- a loop over one axis folds its body over the steps of the axis
  have hloop : ∀ (c : ℚ) (body : ℕ → ExtTreeSet ℕ → Option (ExtTreeSet ℕ))
      (g : ExtTreeSet ℕ → ℕ → ExtTreeSet ℕ), (∀ v s, body v s = some (g s v)) → ∀ s,
      checkedLoop (ix.normalizeCoordinate (c + radius)) (1 <<< (21 - depthBits / 3)) body (n + 1)
        ((ix.normalizeCoordinate (c - radius) >>> (21 - depthBits / 3)) <<< (21 - depthBits / 3))
        s = some ((ix.axisSteps c radius (21 - depthBits / 3)).foldl g s) := by
    intro c body g hbody s
    have hlt : ix.normalizeCoordinate (c + radius) < 2 ^ 21 := normalizeCoordinate_lt _
    apply checkedLoop_eq hstep (by omega) hbody
    · exact Nat.lt_add_left _ (by omega)
    · exact Nat.lt_add_left _ (Nat.lt_succ_self _)
  unfold checkedSpatialPrefixes
  simp only [h₁, h₂, h₃, h₄, Option.bind_eq_bind, Option.bind_some]
  have hz := fun x y => hloop cz _ (fun prefixes z =>
    prefixes.insert (prefixAt (encode3dMorton x y z) depthBits)) fun _ _ => rfl
  have hy := fun x => hloop cy _ _ fun y s => hz x y s
  have hx := hloop cx _ _ fun x s => hy x s
  exact (congrArg (Option.bind · _) (hx ∅)).trans rfl

/-! ## The cells of the box -/

/-- A grid point in the quantised bounding box of a ball. -/
structure InBox (ix : HybridSpatioTemporalIndexer) (cx cy cz radius : ℚ) (n : GridPoint) :
    Prop where
  x_ge : ix.normalizeCoordinate (cx - radius) ≤ n.x
  x_le : n.x ≤ ix.normalizeCoordinate (cx + radius)
  y_ge : ix.normalizeCoordinate (cy - radius) ≤ n.y
  y_le : n.y ≤ ix.normalizeCoordinate (cy + radius)
  z_ge : ix.normalizeCoordinate (cz - radius) ≤ n.z
  z_le : n.z ≤ ix.normalizeCoordinate (cz + radius)

/-- The grid point of a position. -/
def gridPoint (ix : HybridSpatioTemporalIndexer) (x y z : ℚ) : GridPoint :=
  ⟨ix.normalizeCoordinate x, ix.normalizeCoordinate y, ix.normalizeCoordinate z,
    normalizeCoordinate_lt x, normalizeCoordinate_lt y, normalizeCoordinate_lt z⟩

/-- The loop visits no value but the steps up to its end. -/
theorem exists_of_mem_gridSteps {max step fuel v w : ℕ} (h : w ∈ gridSteps max step fuel v) :
    ∃ i, w = v + i * step ∧ w ≤ max := by
  induction fuel generalizing v with
  | zero => cases h
  | succ fuel ih =>
    rw [gridSteps] at h
    by_cases hv : v ≤ max
    · rw [if_pos hv, List.mem_cons] at h
      rcases h with rfl | h
      · exact ⟨0, by simp, hv⟩
      · split_ifs at h with hlast
        · cases h
        · obtain ⟨i, rfl, hle⟩ := ih h
          exact ⟨i + 1, by ring, hle⟩
    · rw [if_neg hv] at h
      cases h

/-- **No step of an axis is alone in its cell**: it shares its interval with a coordinate between
the ends. -/
theorem exists_of_mem_axisSteps {center radius : ℚ} {axisShift w : ℕ} (hr : 0 ≤ radius)
    (h : w ∈ ix.axisSteps center radius axisShift) :
    ∃ n, ix.normalizeCoordinate (center - radius) ≤ n ∧
      n ≤ ix.normalizeCoordinate (center + radius) ∧ w >>> axisShift = n >>> axisShift := by
  obtain ⟨i, hw, hle⟩ := exists_of_mem_gridSteps h
  have hmono : ix.normalizeCoordinate (center - radius) ≤
      ix.normalizeCoordinate (center + radius) := normalizeCoordinate_mono ix (by linarith)
  generalize ix.normalizeCoordinate (center - radius) = nMin at *
  by_cases hmin : nMin ≤ w
  · exact ⟨w, hmin, hle, rfl⟩
  · -- only the snapped start lies below the box
    refine ⟨nMin, le_rfl, hmono, ?_⟩
    rw [Nat.shiftLeft_eq, Nat.shiftRight_eq_div_pow] at hw
    rw [Nat.shiftRight_eq_div_pow, Nat.shiftRight_eq_div_pow]
    have hstart : nMin / 2 ^ axisShift * 2 ^ axisShift ≤ w := hw ▸ Nat.le_add_right _ _
    apply Nat.le_antisymm
    · exact Nat.div_le_div_right (by omega)
    · exact (Nat.le_div_iff_mul_le (Nat.two_pow_pos _)).2 hstart

/-- **Cell enumeration is exact**: the prefixes are those of the points in the box. -/
theorem mem_computeSpatialPrefixes_iff_inBox {cx cy cz radius : ℚ} {depthBits p : ℕ}
    (hr : 0 ≤ radius) (hd : depthBits % 3 = 0) (hle : depthBits ≤ 63) :
    p ∈ ix.computeSpatialPrefixes cx cy cz radius depthBits ↔
      ∃ n : GridPoint, ix.InBox cx cy cz radius n ∧ p = prefixAt n.morton depthBits := by
  constructor
  · intro h
    obtain ⟨x, hx, y, hy, z, hz, rfl⟩ := mem_computeSpatialPrefixes_iff.1 h
    obtain ⟨nx, hx₁, hx₂, hx₃⟩ := exists_of_mem_axisSteps hr hx
    obtain ⟨ny, hy₁, hy₂, hy₃⟩ := exists_of_mem_axisSteps hr hy
    obtain ⟨nz, hz₁, hz₂, hz₃⟩ := exists_of_mem_axisSteps hr hz
    refine ⟨⟨nx, ny, nz, hx₂.trans_lt (normalizeCoordinate_lt _),
      hy₂.trans_lt (normalizeCoordinate_lt _), hz₂.trans_lt (normalizeCoordinate_lt _)⟩,
      ⟨hx₁, hx₂, hy₁, hy₂, hz₁, hz₂⟩, ?_⟩
    exact prefixAt_encode3dMorton hd hle hx₃ hy₃ hz₃
  · rintro ⟨n, hn, rfl⟩
    exact mem_computeSpatialPrefixes hd hle ⟨hn.x_ge, hn.x_le⟩ ⟨hn.y_ge, hn.y_le⟩
      ⟨hn.z_ge, hn.z_le⟩

/-- The point of a position within the radius on each axis is in the box. -/
theorem inBox_gridPoint {cx cy cz radius x y z : ℚ} (hx : |x - cx| ≤ radius)
    (hy : |y - cy| ≤ radius) (hz : |z - cz| ≤ radius) :
    ix.InBox cx cy cz radius (ix.gridPoint x y z) := by
  have hends : ∀ c v : ℚ, |v - c| ≤ radius →
      ix.normalizeCoordinate (c - radius) ≤ ix.normalizeCoordinate v ∧
        ix.normalizeCoordinate v ≤ ix.normalizeCoordinate (c + radius) := by
    intro c v h
    obtain ⟨h₁, h₂⟩ := abs_le.1 h
    exact ⟨normalizeCoordinate_mono ix (by linarith), normalizeCoordinate_mono ix (by linarith)⟩
  obtain ⟨hx₁, hx₂⟩ := hends cx x hx
  obtain ⟨hy₁, hy₂⟩ := hends cy y hy
  obtain ⟨hz₁, hz₂⟩ := hends cz z hz
  exact ⟨hx₁, hx₂, hy₁, hy₂, hz₁, hz₂⟩

/-- The code lies between the ends of the cell. -/
def CellHas (depthBits p m : ℕ) : Prop := p ≤ m ∧ m ≤ p + (2 ^ (64 - depthBits) - 1)

/-- What `compute_spatial_prefixes` returns for a box. -/
structure ExactCover (ix : HybridSpatioTemporalIndexer) (cx cy cz radius : ℚ) (depthBits : ℕ)
    (prefixes : List ℕ) : Prop where
  /-- The walk terminates without overflow and returns the prefixes. -/
  computes : ∀ fuel, 2 ^ 21 < fuel →
    ix.checkedSpatialPrefixes fuel cx cy cz radius depthBits = some prefixes
  /-- They are the prefixes of the points of the box, each once. -/
  nodup : prefixes.Nodup
  mem_iff : ∀ p, p ∈ prefixes ↔
    ∃ n : GridPoint, ix.InBox cx cy cz radius n ∧ p = prefixAt n.morton depthBits
  /-- A position within the radius on each axis has its code in one cell. -/
  covers : ∀ x y z : ℚ, |x - cx| ≤ radius → |y - cy| ≤ radius → |z - cz| ≤ radius →
    ∃! p, p ∈ prefixes ∧ CellHas depthBits p (ix.gridPoint x y z).morton
  /-- No cell misses the box. -/
  meets : ∀ p ∈ prefixes, ∃ n : GridPoint, ix.InBox cx cy cz radius n ∧
    CellHas depthBits p n.morton

/-- **Cell enumeration is exact.** -/
theorem exactCover_computeSpatialPrefixes (ix : HybridSpatioTemporalIndexer) (cx cy cz : ℚ)
    {radius : ℚ} {depthBits : ℕ} (hr : 0 ≤ radius) (h3 : 3 ≤ depthBits) (hle : depthBits ≤ 63)
    (hd : depthBits % 3 = 0) :
    ExactCover ix cx cy cz radius depthBits
      (ix.computeSpatialPrefixes cx cy cz radius depthBits) := by
  have hcell : ∀ {p m}, p ∈ ix.computeSpatialPrefixes cx cy cz radius depthBits →
      (CellHas depthBits p m ↔ prefixAt m depthBits = p) := fun hp =>
    ((isPrefix_of_mem_computeSpatialPrefixes hp).prefixAt_eq_iff).symm
  refine ⟨fun fuel hfuel => checkedSpatialPrefixes_eq h3 hle hfuel,
    nodup_computeSpatialPrefixes .., fun p => mem_computeSpatialPrefixes_iff_inBox hr hd hle,
    fun x y z hx hy hz => ?_, fun p hp => ?_⟩
  · have hbox : ix.InBox cx cy cz radius (ix.gridPoint x y z) := inBox_gridPoint hx hy hz
    have hp := (mem_computeSpatialPrefixes_iff_inBox hr hd hle).2 ⟨_, hbox, rfl⟩
    refine ⟨_, ⟨hp, (hcell hp).2 rfl⟩, ?_⟩
    rintro q ⟨hq, hm⟩
    exact ((hcell hq).1 hm).symm
  · obtain ⟨n, hn, rfl⟩ := (mem_computeSpatialPrefixes_iff_inBox hr hd hle).1 hp
    exact ⟨n, hn, (hcell hp).2 rfl⟩

theorem exactCover_testIndexer :
    ExactCover testIndexer 0 0 0 1 15 (testIndexer.computeSpatialPrefixes 0 0 0 1 15) :=
  exactCover_computeSpatialPrefixes testIndexer 0 0 0 (by norm_num) (by norm_num) (by norm_num)
    (by norm_num)

end HybridSpatioTemporalIndexer

end InterstellarDb
