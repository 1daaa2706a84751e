import Mathlib.Data.List.Sort
import InterstellarDb.Index.Ranges
import InterstellarDb.Store.Open

/-!
# Queries

`queryWindow` scans the planned ranges, keeps the rows of the time window and the sphere, and
sorts them by time.

* The scans meet the rows of the planned ranges, each once (`mem_collect`, `nodup_collect`).
* A matching row is in a planned range unless it lies in the last second of the window, not at
  its start, and its Morton code is the greatest of its cell: there the end key cuts it off
  (`exists_covers_iff`).
* So the answer is exact if and only if no such row is stored (`queryWindow_exact_iff`), and there
  are such rows (`not_queryWindow_exact`).
-/

namespace InterstellarDb

open GreatestWins HybridSpatioTemporalIndexer

/-! ## Scans -/

/-- `scan_range`: the rows in an inclusive key range. The end is padded to 21 bytes to make it
exclusive. -/
def scanRange (kv : KvTree) (start stop : Key) : List Row :=
  (kv.range start.bytes (stop.bytes ++ [0])).filterMap KvTree.rowOf

theorem mem_scanRange {kv : KvTree} {start stop : Key} {r : Row} :
    r ∈ scanRange kv start stop ↔ r ∈ kv.rows ∧ Covers (start, stop) r.1 := by
  obtain ⟨k, v⟩ := r
  rw [scanRange, mem_range_rows (r := (start.bytes, stop.bytes ++ [0])), InScan,
    Key.compare_bytes, Nat.isLE_compare, Key.compare_bytes_append_eq_lt _ _ (by simp),
    kv.rows_table k v]
  rfl

theorem nodup_scanRange (kv : KvTree) (start stop : Key) : (scanRange kv start stop).Nodup :=
  nodup_range_rows kv (start.bytes, stop.bytes ++ [0])

/-! ## Queries -/

/-- `Observation`: an answer of a query. -/
structure Observation where
  key : Bytes
  x : ℚ
  y : ℚ
  z : ℚ
  timestampSecs : ℕ
  timestampNanos : ℕ
  payload : Bytes
  deriving DecidableEq

/-- The observation of a row. -/
def observation (ix : HybridSpatioTemporalIndexer) (r : Row) : Observation :=
  let (x, y, z, secs, nanos) := ix.decodeKey r.1
  ⟨r.1.bytes, x, y, z, secs, nanos, r.2⟩

/-- The chronological order of the answers. -/
def Observation.Le (a b : Observation) : Prop :=
  a.timestampSecs < b.timestampSecs ∨
    a.timestampSecs = b.timestampSecs ∧ a.timestampNanos ≤ b.timestampNanos

instance : DecidableRel Observation.Le := fun _ _ => inferInstanceAs (Decidable (_ ∨ _ ∧ _))

instance : Std.Total Observation.Le := ⟨fun a b => by
  unfold Observation.Le
  omega⟩

instance : IsTrans Observation Observation.Le := ⟨fun a b c => by
  unfold Observation.Le
  omega⟩

/-- The position and the second that a key decodes to lie in the sphere and the time window. -/
def Matches (ix : HybridSpatioTemporalIndexer) (cx cy cz radius : ℚ) (startSecs endSecs : ℕ)
    (key : Key) : Prop :=
  let (x, y, z, secs, _) := ix.decodeKey key
  let (dx, dy, dz) := (x - cx, y - cy, z - cz)
  (startSecs ≤ secs ∧ secs ≤ endSecs) ∧ dx * dx + dy * dy + dz * dz ≤ radius * radius

instance (ix : HybridSpatioTemporalIndexer) (cx cy cz radius : ℚ) (startSecs endSecs : ℕ)
    (key : Key) : Decidable (Matches ix cx cy cz radius startSecs endSecs key) :=
  inferInstanceAs (Decidable ((_ ∧ _) ∧ _))

/-- `collect`: scan the ranges, filter by time and sphere, sort chronologically. -/
def collect (kv : KvTree) (ix : HybridSpatioTemporalIndexer) (ranges : List (Key × Key))
    (cx cy cz radius : ℚ) (startSecs endSecs : ℕ) : List Observation :=
  let all := ranges.flatMap fun range =>
    (kv.range range.1.bytes (range.2.bytes ++ [0])).filterMap fun x =>
      match Key.tryFrom x.1 with
      | none => none
      | some key =>
        if Matches ix cx cy cz radius startSecs endSecs key then some (observation ix (key, x.2))
        else none
  -- `sort_by` is stable, like `insertionSort`
  all.insertionSort Observation.Le

variable {L : LeafDepth}

/-- `query_window`; `checkedQueryWindow` tells where its planner panics. -/
def queryWindow (s : SpatioTemporalStore L) (cx cy cz radius : ℚ) (startSecs endSecs : ℕ) :
    List Observation :=
  let depth := s.indexer.calculateOptimalDepth radius
  let ranges := s.indexer.getBoundaryProtectedRangesTimeWindow cx cy cz radius startSecs endSecs
    depth
  collect s.tree s.indexer ranges cx cy cz radius startSecs endSecs

section Collect

variable {kv : KvTree} {ix : HybridSpatioTemporalIndexer} {ranges : List (Key × Key)}
  {cx cy cz radius : ℚ} {startSecs endSecs : ℕ}

theorem observation_injective (ix : HybridSpatioTemporalIndexer) :
    Function.Injective (observation ix) := by
  rintro ⟨k, v⟩ ⟨k', v'⟩ h
  have hk : k.bytes = k'.bytes := congrArg Observation.key h
  have hv : v = v' := congrArg Observation.payload h
  rw [Key.ext hk, hv]

/-- The scans, filtered, before they are sorted. -/
theorem collect_eq :
    collect kv ix ranges cx cy cz radius startSecs endSecs =
      (((ranges.flatMap fun range => scanRange kv range.1 range.2).filter fun r =>
        decide (Matches ix cx cy cz radius startSecs endSecs r.1)).map
          (observation ix)).insertionSort Observation.Le := by
  unfold collect
  dsimp only
  congr 1
  rw [List.filter_flatMap, List.map_flatMap]
  congr 1
  funext range
  rw [scanRange, List.filter_filterMap, List.map_filterMap]
  congr 1
  funext x
  rw [KvTree.rowOf]
  cases Key.tryFrom x.1 with
  | none => rfl
  | some key =>
    by_cases h : Matches ix cx cy cz radius startSecs endSecs key
    · simp [h, Option.filter]
    · simp [h, Option.filter]

theorem mem_collect {o : Observation} :
    o ∈ collect kv ix ranges cx cy cz radius startSecs endSecs ↔
      ∃ r ∈ kv.rows, (∃ range ∈ ranges, Covers range r.1) ∧
        Matches ix cx cy cz radius startSecs endSecs r.1 ∧ o = observation ix r := by
  rw [collect_eq, List.mem_insertionSort, List.mem_map]
  simp only [List.mem_filter, List.mem_flatMap, mem_scanRange, decide_eq_true_eq]
  constructor
  · rintro ⟨r, ⟨⟨range, hrange, hr, hc⟩, hm⟩, rfl⟩
    exact ⟨r, hr, ⟨range, hrange, hc⟩, hm, rfl⟩
  · rintro ⟨r, hr, ⟨range, hrange, hc⟩, hm, rfl⟩
    exact ⟨r, ⟨⟨range, hrange, hr, hc⟩, hm⟩, rfl⟩

/-- Disjoint ranges give each row once. -/
theorem nodup_collect (h : ranges.Pairwise fun a b => ∀ k, Covers a k → ¬ Covers b k) :
    (collect kv ix ranges cx cy cz radius startSecs endSecs).Nodup := by
  rw [collect_eq, (List.perm_insertionSort _ _).nodup_iff]
  refine (List.Nodup.filter _ ?_).map (observation_injective ix)
  refine List.nodup_flatMap.2 ⟨fun range _ => nodup_scanRange kv range.1 range.2, ?_⟩
  refine h.imp fun {a b} hab r ha hb => ?_
  exact hab r.1 (mem_scanRange.1 ha).2 (mem_scanRange.1 hb).2

end Collect

/-! ## Which matching rows are covered -/

/-- The key was generated for an instant that fits its fields. -/
def Generated (ix : HybridSpatioTemporalIndexer) (key : Key) : Prop :=
  ∃ x y z secs nanos, nanos < nanosPerSec ∧ secs / ix.epochDuration < 2 ^ 32 ∧
    secs * nanosPerSec + nanos < 2 ^ 64 ∧ key = ix.generateKey x y z secs nanos

section Covered

variable {ix : HybridSpatioTemporalIndexer} {cx cy cz radius : ℚ} {startSecs endSecs : ℕ} {k : Key}

/-- A coordinate of the sphere lies in the box around it. -/
theorem box_of_sphere {x c rest : ℚ} (hr : 0 ≤ radius) (hrest : 0 ≤ rest)
    (h : (x - c) * (x - c) + rest ≤ radius * radius) : c - radius ≤ x ∧ x ≤ c + radius := by
  have hsq : (x - c) ^ 2 ≤ radius ^ 2 := by
    rw [pow_two, pow_two]
    linarith
  obtain ⟨h₁, h₂⟩ := abs_le_of_sq_le_sq' hsq hr
  constructor
  · linarith
  · linarith

/-- A quantised coordinate in an interval has its grid coordinate between those of the ends. -/
theorem normalizeCoordinate_between {v low up : ℚ}
    (h : low ≤ ix.denormalizeCoordinate (ix.normalizeCoordinate v) ∧
      ix.denormalizeCoordinate (ix.normalizeCoordinate v) ≤ up) :
    ix.normalizeCoordinate low ≤ ix.normalizeCoordinate v ∧
      ix.normalizeCoordinate v ≤ ix.normalizeCoordinate up := by
  have hgrid : ix.normalizeCoordinate (ix.denormalizeCoordinate (ix.normalizeCoordinate v)) =
      ix.normalizeCoordinate v :=
    normalizeCoordinate_denormalizeCoordinate (normalizeCoordinate_le v)
  have h₁ := ix.normalizeCoordinate_mono h.1
  have h₂ := ix.normalizeCoordinate_mono h.2
  rw [hgrid] at h₁ h₂
  exact ⟨h₁, h₂⟩

theorem matches_generateKey {x y z : ℚ} {secs nanos : ℕ} (hn : nanos < nanosPerSec)
    (he : secs / ix.epochDuration < 2 ^ 32) (ht : secs * nanosPerSec + nanos < 2 ^ 64) :
    Matches ix cx cy cz radius startSecs endSecs (ix.generateKey x y z secs nanos) ↔
      (startSecs ≤ secs ∧ secs ≤ endSecs) ∧
        (ix.denormalizeCoordinate (ix.normalizeCoordinate x) - cx) *
            (ix.denormalizeCoordinate (ix.normalizeCoordinate x) - cx) +
          (ix.denormalizeCoordinate (ix.normalizeCoordinate y) - cy) *
            (ix.denormalizeCoordinate (ix.normalizeCoordinate y) - cy) +
          (ix.denormalizeCoordinate (ix.normalizeCoordinate z) - cz) *
            (ix.denormalizeCoordinate (ix.normalizeCoordinate z) - cz) ≤ radius * radius := by
  unfold Matches
  rw [decodeKey_generateKey hn he ht]

/-- The cell of a matching row is planned. -/
theorem prefixAt_mem_of_matches (hk : Generated ix k) (hr : 0 ≤ radius)
    (hm : Matches ix cx cy cz radius startSecs endSecs k) {depthBits : ℕ}
    (hd : depthBits % 3 = 0) (hle : depthBits ≤ 63) :
    prefixAt k.morton depthBits ∈ ix.computeSpatialPrefixes cx cy cz radius depthBits := by
  obtain ⟨x, y, z, secs, nanos, hn, he, ht, rfl⟩ := hk
  obtain ⟨-, hsphere⟩ := (matches_generateKey hn he ht).1 hm
  rw [morton_generateKey]
  have hdx := mul_self_nonneg (ix.denormalizeCoordinate (ix.normalizeCoordinate x) - cx)
  have hdy := mul_self_nonneg (ix.denormalizeCoordinate (ix.normalizeCoordinate y) - cy)
  have hdz := mul_self_nonneg (ix.denormalizeCoordinate (ix.normalizeCoordinate z) - cz)
  refine mem_computeSpatialPrefixes hd hle (normalizeCoordinate_between ?_)
    (normalizeCoordinate_between ?_) (normalizeCoordinate_between ?_)
  · exact box_of_sphere hr (add_nonneg hdy hdz) (by linarith)
  · exact box_of_sphere hr (add_nonneg hdx hdz) (by linarith)
  · exact box_of_sphere hr (add_nonneg hdx hdy) (by linarith)

/-- The end key of the last epoch cuts a key off: it lies in the last second of the window, not at
its start, and its Morton code is the greatest of its cell. -/
def CutOff (ix : HybridSpatioTemporalIndexer) (endSecs depthBits : ℕ) (key : Key) : Prop :=
  let (_, _, _, secs, nanos) := ix.decodeKey key
  secs = endSecs ∧ nanos ≠ 0 ∧ key.morton % 2 ^ (64 - depthBits) = 2 ^ (64 - depthBits) - 1

theorem morton_eq_last_iff {m d : ℕ} :
    m = prefixAt m d + (2 ^ (64 - d) - 1) ↔ m % 2 ^ (64 - d) = 2 ^ (64 - d) - 1 := by
  have := Nat.div_add_mod' m (2 ^ (64 - d))
  rw [prefixAt_eq]
  omega

theorem mod_le_mod_of_div_eq {a b d : ℕ} (h : a ≤ b) (hd : a / d = b / d) : a % d ≤ b % d := by
  have ha := Nat.div_add_mod a d
  have hb := Nat.div_add_mod b d
  rw [hd] at ha
  omega

section TimeFields

variable {x y z : ℚ} {secs nanos : ℕ}

theorem epoch_generateKey_eq_iff {t : ℕ} (he : secs / ix.epochDuration < 2 ^ 32)
    (ht : t / ix.epochDuration < 2 ^ 32) :
    (ix.generateKey x y z secs nanos).epoch = Fin.ofNat (2 ^ 32) (t / ix.epochDuration) ↔
      secs / ix.epochDuration = t / ix.epochDuration := by
  rw [Fin.ext_iff, epoch_generateKey he, Fin.val_ofNat, Nat.mod_eq_of_lt ht]

/-- The start key of the first epoch cuts no row of the window off. -/
theorem timeLo_le_offset (hn : nanos < nanosPerSec) (he : secs / ix.epochDuration < 2 ^ 32)
    (h : startSecs ≤ secs) :
    ix.timeLo startSecs (ix.generateKey x y z secs nanos).epoch ≤
      (ix.generateKey x y z secs nanos).offset := by
  have hdiv := Nat.div_le_div_right (c := ix.epochDuration) h
  rw [timeLo, offset_generateKey hn]
  split_ifs with heq
  · rw [epoch_generateKey_eq_iff he (hdiv.trans_lt he)] at heq
    have := Nat.mul_le_mul_right nanosPerSec (mod_le_mod_of_div_eq h heq.symm)
    omega
  · exact Nat.zero_le _

/-- The end key of the last epoch cuts off what lies in the last second after its start. -/
theorem offset_le_timeHi_iff (hn : nanos < nanosPerSec) (he : secs / ix.epochDuration < 2 ^ 32)
    (hend : endSecs / ix.epochDuration < 2 ^ 32) (h : secs ≤ endSecs) :
    (ix.generateKey x y z secs nanos).offset ≤
        ix.timeHi endSecs (ix.generateKey x y z secs nanos).epoch ↔
      ¬ (secs = endSecs ∧ nanos ≠ 0) := by
  have hlt := (ix.generateKey x y z secs nanos).offset_lt
  rw [offset_generateKey hn] at hlt ⊢
  unfold timeHi
  split_ifs with heq
  · rw [epoch_generateKey_eq_iff he hend] at heq
    have hmod := mod_le_mod_of_div_eq h heq
    have hsecs : secs % ix.epochDuration = endSecs % ix.epochDuration ↔ secs = endSecs := by
      have ha := Nat.div_add_mod secs ix.epochDuration
      have hb := Nat.div_add_mod endSecs ix.epochDuration
      rw [heq] at ha
      omega
    rw [← hsecs]
    unfold nanosPerSec at *
    omega
  · rw [epoch_generateKey_eq_iff he hend] at heq
    have hne : secs ≠ endSecs := fun h' => heq (h' ▸ rfl)
    simp only [hne, false_and, not_false_eq_true, iff_true]
    omega

end TimeFields

/-- **A matching row is in a planned range unless it is cut off.** -/
theorem exists_covers_iff (hk : Generated ix k) (hr : 0 ≤ radius)
    (hend : endSecs / ix.epochDuration < 2 ^ 32)
    (hm : Matches ix cx cy cz radius startSecs endSecs k) {depthBits : ℕ}
    (hd : depthBits % 3 = 0) (hle : depthBits ≤ 63) :
    (∃ range ∈ ix.getBoundaryProtectedRangesTimeWindow cx cy cz radius startSecs endSecs depthBits,
      Covers range k) ↔ ¬ CutOff ix endSecs depthBits k := by
  have hcell := prefixAt_mem_of_matches hk hr hm hd hle
  have hranges : (∃ range ∈ ix.getBoundaryProtectedRangesTimeWindow cx cy cz radius startSecs
      endSecs depthBits, Covers range k) ↔
      startSecs / ix.epochDuration % 2 ^ 32 ≤ k.epoch.val ∧
        k.epoch.val ≤ endSecs / ix.epochDuration % 2 ^ 32 ∧
        Covers (ix.timeWindowRange startSecs endSecs depthBits k.epoch
          (prefixAt k.morton depthBits)) k := by
    constructor
    · rintro ⟨_, hmem, hc⟩
      obtain ⟨e, h₁, h₂, p, hp, rfl⟩ := mem_timeWindowRanges.1 hmem
      obtain ⟨⟨rfl, rfl⟩, -⟩ :=
        (covers_timeWindowRange (isPrefix_of_mem_computeSpatialPrefixes hp) k).1 hc
      exact ⟨h₁, h₂, hc⟩
    · rintro ⟨h₁, h₂, hc⟩
      exact ⟨_, mem_timeWindowRanges.2 ⟨k.epoch, h₁, h₂, _, hcell, rfl⟩, hc⟩
  rw [hranges, covers_timeWindowRange (isPrefix_of_mem_computeSpatialPrefixes hcell),
    morton_eq_last_iff]
  obtain ⟨x, y, z, secs, nanos, hn, he, ht, rfl⟩ := hk
  obtain ⟨⟨hstart, hstop⟩, -⟩ := (matches_generateKey hn he ht).1 hm
  have hstart' := Nat.div_le_div_right (c := ix.epochDuration) hstart
  have hstop' := Nat.div_le_div_right (c := ix.epochDuration) hstop
  have hlo := timeLo_le_offset (x := x) (y := y) (z := z) hn he hstart
  have hhi := offset_le_timeHi_iff (x := x) (y := y) (z := z) hn he hend hstop
  have hcut : CutOff ix endSecs depthBits (ix.generateKey x y z secs nanos) ↔
      (secs = endSecs ∧ nanos ≠ 0) ∧
        (ix.generateKey x y z secs nanos).morton % 2 ^ (64 - depthBits) =
          2 ^ (64 - depthBits) - 1 := by
    unfold CutOff
    rw [decodeKey_generateKey hn he ht, and_assoc]
  rw [hhi, hcut, epoch_generateKey he, Nat.mod_eq_of_lt hend,
    Nat.mod_eq_of_lt (hstart'.trans_lt he)]
  simp only [hstart', hstop', inCell_self, hlo, implies_true, true_and]
  exact not_and'.symm

end Covered

/-! ## The answer -/

section Answer

/-- The answer of a query is exact: its members are the matching rows, each once, in
chronological order. -/
structure Exact (ix : HybridSpatioTemporalIndexer) (rows : Finset Row) (cx cy cz radius : ℚ)
    (startSecs endSecs : ℕ) (answer : List Observation) : Prop where
  mem : ∀ o, o ∈ answer ↔
    ∃ r ∈ rows, Matches ix cx cy cz radius startSecs endSecs r.1 ∧ o = observation ix r
  nodup : answer.Nodup
  sorted : answer.Pairwise Observation.Le

/-- **A query answers exactly** if and only if no stored row matches it and is cut off. -/
theorem queryWindow_exact_iff (s : SpatioTemporalStore L)
    (hrows : ∀ r ∈ s.rows, Generated s.indexer r.1) {cx cy cz radius : ℚ} {startSecs endSecs : ℕ}
    (hr : 0 ≤ radius) (_hwindow : startSecs ≤ endSecs)
    (hend : endSecs / s.indexer.epochDuration < 2 ^ 32)
    (_hcount : endSecs / s.indexer.epochDuration - startSecs / s.indexer.epochDuration + 1 <
      2 ^ 32) :
    Exact s.indexer s.rows cx cy cz radius startSecs endSecs
        (queryWindow s cx cy cz radius startSecs endSecs) ↔
      ∀ r ∈ s.rows, Matches s.indexer cx cy cz radius startSecs endSecs r.1 →
        ¬ CutOff s.indexer endSecs (s.indexer.calculateOptimalDepth radius) r.1 := by
  have hcover : ∀ r ∈ s.rows, Matches s.indexer cx cy cz radius startSecs endSecs r.1 →
      ((∃ range ∈ s.indexer.getBoundaryProtectedRangesTimeWindow cx cy cz radius startSecs endSecs
        (s.indexer.calculateOptimalDepth radius), Covers range r.1) ↔
          ¬ CutOff s.indexer endSecs (s.indexer.calculateOptimalDepth radius) r.1) :=
    fun r hr' hm => exists_covers_iff (hrows r hr') hr hend hm
      (calculateOptimalDepth_mod radius) (calculateOptimalDepth_le radius)
  constructor
  · intro h r hr' hm
    have ho := (h.mem (observation s.indexer r)).2 ⟨r, hr', hm, rfl⟩
    obtain ⟨r', -, hc, -, heq⟩ := mem_collect.1 ho
    obtain rfl := observation_injective _ heq
    exact (hcover r hr' hm).1 hc
  · intro h
    refine ⟨fun o => ?_, nodup_collect disjoint_timeWindowRanges, List.pairwise_insertionSort _ _⟩
    unfold queryWindow
    rw [mem_collect]
    constructor
    · rintro ⟨r, hr', -, hm, rfl⟩
      exact ⟨r, hr', hm, rfl⟩
    · rintro ⟨r, hr', hm, rfl⟩
      exact ⟨r, hr', (hcover r hr' hm).2 (h r hr' hm), hm, rfl⟩

end Answer

/-! ## A row in the corner of a cell -/

section Sample

/-- The store with one row, at the upper corner of the range. -/
def cornerQueryStore (secs nanos : ℕ) : SpatioTemporalStore merkleLeafDepth where
  indexer := testIndexer
  tree := KvTree.empty.commit
    [.set (testIndexer.generateKey 1000 1000 1000 secs nanos).bytes [0x61]]
  merkle := .new merkleLeafDepth
  sealState := .empty
  sealIo := false
  receivers := 0
  events := []

theorem generated_cornerQueryStore {secs nanos : ℕ} (hn : nanos < nanosPerSec)
    (he : secs / testIndexer.epochDuration < 2 ^ 32) (ht : secs * nanosPerSec + nanos < 2 ^ 64) :
    ∀ r ∈ (cornerQueryStore secs nanos).rows, Generated testIndexer r.1 := by
  rintro ⟨k, v⟩ hr
  rw [(cornerQueryStore secs nanos).tree.rows_table k v, cornerQueryStore, KvTree.table_set] at hr
  rcases eq_some_of_update hr with h | ⟨rfl, -⟩
  · simp [KvTree.table, KvTree.get, KvTree.empty] at h
  · exact ⟨1000, 1000, 1000, secs, nanos, hn, he, ht, rfl⟩

/-- A row at the start of the last second is found. -/
theorem queryWindow_exact_iff_corner :
    Exact testIndexer (cornerQueryStore 10 0).rows 1000 1000 1000 1 0 10
        (queryWindow (cornerQueryStore 10 0) 1000 1000 1000 1 0 10) ∧
      (queryWindow (cornerQueryStore 10 0) 1000 1000 1000 1 0 10).length = 1 := by
  refine ⟨(queryWindow_exact_iff (cornerQueryStore 10 0)
    (generated_cornerQueryStore (by decide) (by decide) (by decide)) (by norm_num) (by norm_num)
    (by decide) (by decide)).2 ?_, by decide +kernel⟩
  unfold CutOff
  decide +kernel

/-- **A matching row is missing**: one nanosecond into the last second of the window, at the
greatest Morton code of its cell. -/
theorem not_queryWindow_exact :
    ¬ ∀ (s : SpatioTemporalStore merkleLeafDepth) (cx cy cz radius : ℚ) (startSecs endSecs : ℕ),
      (∀ r ∈ s.rows, Generated s.indexer r.1) → 0 ≤ radius → startSecs ≤ endSecs →
      endSecs / s.indexer.epochDuration < 2 ^ 32 →
      endSecs / s.indexer.epochDuration - startSecs / s.indexer.epochDuration + 1 < 2 ^ 32 →
      Exact s.indexer s.rows cx cy cz radius startSecs endSecs
        (queryWindow s cx cy cz radius startSecs endSecs) := by
  intro h
  have hexact := h (cornerQueryStore 10 1) 1000 1000 1000 1 0 10
    (generated_cornerQueryStore (by decide) (by decide) (by decide)) (by norm_num) (by norm_num)
    (by decide) (by decide)
  have hmissing : queryWindow (cornerQueryStore 10 1) 1000 1000 1000 1 0 10 = [] := by
    decide +kernel
  have hmatch : ∃ r ∈ (cornerQueryStore 10 1).rows,
      Matches testIndexer 1000 1000 1000 1 0 10 r.1 := by
    decide +kernel
  obtain ⟨r, hr, hm⟩ := hmatch
  have hmem := (hexact.mem (observation testIndexer r)).2 ⟨r, hr, hm, rfl⟩
  rw [hmissing] at hmem
  cases hmem

end Sample

end InterstellarDb
