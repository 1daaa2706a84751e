import Mathlib.Algebra.BigOperators.Group.Finset.Piecewise
import Mathlib.Order.Lattice

/-!
# Tables in which the greatest value wins

A table maps keys to at most one value each. Values compete for a key by their rank: a table
*dominates* `v` under `k` when it holds a value of at least the rank of `v` there, and one table
is *below* another when the other dominates all it holds. Offering a value to a table replaces
the present one only by a value of a greater rank, so tables only grow (`below_offer`).

`IsJoin m m₁ m₂` says that `m` is above `m₁` and `m₂` and holds nothing else; when different
values have different ranks there is only one such table (`IsJoin.unique`), in whatever order
the values were offered.

Of values offered in turn, a key ends up with the greatest candidate (`offerAll_eq_some_iff`).

A finite table is also a finite set of rows, over which one sums (`Rows`, `Rows.sum_update`).
-/

namespace InterstellarDb.GreatestWins

variable {κ ν ρ : Type*} [LinearOrder ρ] (rank : κ → ν → ρ)

/-- The table holds, under `k`, a value of at least the rank of `v`. -/
def Dominates (m : κ → Option ν) (k : κ) (v : ν) : Prop :=
  ∃ w, m k = some w ∧ rank k v ≤ rank k w

/-- Everything that `m` holds is dominated by `m'`. -/
def Below (m m' : κ → Option ν) : Prop := ∀ k v, m k = some v → Dominates rank m' k v

variable {rank} {m m' m₁ m₂ m₃ : κ → Option ν} {k : κ} {v w : ν}

theorem Dominates.of_eq (h : m k = some v) : Dominates rank m k v := ⟨v, h, le_rfl⟩

theorem Below.refl (m : κ → Option ν) : Below rank m m := fun _ _ h => .of_eq h

theorem Dominates.mono (h : Dominates rank m k v) (hm : Below rank m m') :
    Dominates rank m' k v := by
  obtain ⟨w, hw, hvw⟩ := h
  obtain ⟨x, hx, hwx⟩ := hm k w hw
  exact ⟨x, hx, hvw.trans hwx⟩

theorem Below.trans (h : Below rank m₁ m₂) (h' : Below rank m₂ m₃) : Below rank m₁ m₃ :=
  fun k v hv => (h k v hv).mono h'

theorem Dominates.of_le (h : Dominates rank m k w) (hle : rank k v ≤ rank k w) :
    Dominates rank m k v := by
  obtain ⟨x, hx, hwx⟩ := h
  exact ⟨x, hx, hle.trans hwx⟩

theorem rank_le_of_not_dominates (h : ¬ Dominates rank m k v) (hw : m k = some w) :
    rank k w ≤ rank k v := by
  by_contra hle
  exact h ⟨w, hw, (not_le.1 hle).le⟩

variable [DecidableEq κ]

/-- Replacing a value by one of at least its rank, or filling an empty place. -/
theorem below_update (h : ∀ w, m k = some w → rank k w ≤ rank k v) :
    Below rank m (Function.update m k (some v)) := by
  intro j w hw
  by_cases hj : j = k
  · subst hj
    exact ⟨v, Function.update_self .., h w hw⟩
  · exact ⟨w, by rwa [Function.update_of_ne hj], le_rfl⟩

variable (rank) in
/-- Offer the value `v` to the key `k`: it stays unless the key has one of at least its rank. -/
def offer (m : κ → Option ν) (k : κ) (v : ν) : κ → Option ν :=
  match m k with
  | none => Function.update m k (some v)
  | some c => if rank k v ≤ rank k c then m else Function.update m k (some v)

theorem offer_of_dominates (h : Dominates rank m k v) : offer rank m k v = m := by
  obtain ⟨c, hc, hle⟩ := h
  simp only [offer, hc, if_pos hle]

theorem offer_of_not_dominates (h : ¬ Dominates rank m k v) :
    offer rank m k v = Function.update m k (some v) := by
  cases hc : m k with
  | none => simp only [offer, hc]
  | some c =>
    have hlt : ¬ rank k v ≤ rank k c := fun hle => h ⟨c, hc, hle⟩
    simp only [offer, hc, if_neg hlt]

theorem below_offer (m : κ → Option ν) (k : κ) (v : ν) : Below rank m (offer rank m k v) := by
  by_cases h : Dominates rank m k v
  · rw [offer_of_dominates h]
    exact .refl m
  · rw [offer_of_not_dominates h]
    exact below_update fun c hc => rank_le_of_not_dominates h hc

theorem dominates_offer (m : κ → Option ν) (k : κ) (v : ν) :
    Dominates rank (offer rank m k v) k v := by
  by_cases h : Dominates rank m k v
  · rwa [offer_of_dominates h]
  · rw [offer_of_not_dominates h]
    exact .of_eq (Function.update_self ..)

theorem eq_some_of_update {j : κ} (h : Function.update m k (some v) j = some w) :
    m j = some w ∨ j = k ∧ w = v := by
  by_cases hj : j = k
  · subst hj
    rw [Function.update_self] at h
    exact .inr ⟨rfl, (Option.some.inj h).symm⟩
  · rw [Function.update_of_ne hj] at h
    exact .inl h

/-- An offer invents nothing. -/
theorem eq_some_of_offer {j : κ} (h : offer rank m k v j = some w) :
    m j = some w ∨ j = k ∧ w = v := by
  by_cases hk : Dominates rank m k v
  · rw [offer_of_dominates hk] at h
    exact .inl h
  · rw [offer_of_not_dominates hk] at h
    exact eq_some_of_update h

/-- An offer leaves the other keys. -/
theorem offer_of_ne {j : κ} (h : j ≠ k) : offer rank m k v j = m j := by
  by_cases hk : Dominates rank m k v
  · rw [offer_of_dominates hk]
  · rw [offer_of_not_dominates hk, Function.update_of_ne h]

/-- An offer that changes its key puts its value there. -/
theorem offer_eq_some_of_ne (h : offer rank m k v k ≠ m k) : offer rank m k v k = some v := by
  by_cases hk : Dominates rank m k v
  · exact absurd (congrFun (offer_of_dominates hk) k) h
  · rw [offer_of_not_dominates hk, Function.update_self]

/-! ## Offering values in turn -/

section OfferAll

variable (rank) in
/-- Offer values to a table, one after another. -/
def offerAll (m : κ → Option ν) (l : List (κ × ν)) : κ → Option ν :=
  l.foldl (fun m r => offer rank m r.1 r.2) m

/-- `v` is in the table under `k`, or among the values offered there. -/
def Candidate (m : κ → Option ν) (l : List (κ × ν)) (k : κ) (v : ν) : Prop :=
  m k = some v ∨ (k, v) ∈ l

variable {l l' : List (κ × ν)}

/-- What a table holds after offers was there or was offered. -/
theorem candidate_of_offerAll (h : offerAll rank m l k = some v) : Candidate m l k v := by
  induction l generalizing m with
  | nil => exact .inl h
  | cons r l ih =>
    rcases ih (m := offer rank m r.1 r.2) h with h | h
    · rcases eq_some_of_offer h with h | ⟨rfl, rfl⟩
      · exact .inl h
      · exact .inr (List.mem_cons_self ..)
    · exact .inr (List.mem_cons_of_mem _ h)

theorem below_offerAll (m : κ → Option ν) (l : List (κ × ν)) :
    Below rank m (offerAll rank m l) := by
  induction l generalizing m with
  | nil => exact .refl m
  | cons r l ih => exact (below_offer m r.1 r.2).trans (ih _)

/-- A table dominates what it held and what it was offered. -/
theorem dominates_offerAll (h : Candidate m l k v) : Dominates rank (offerAll rank m l) k v := by
  rcases h with h | h
  · exact below_offerAll m l k v h
  · induction l generalizing m with
    | nil => cases h
    | cons r l ih =>
      rcases List.mem_cons.1 h with rfl | h
      · exact (dominates_offer m k v).mono (below_offerAll _ l)
      · exact ih h

omit [DecidableEq κ] in
theorem Candidate.congr (h : ∀ r, r ∈ l ↔ r ∈ l') : Candidate m l k v ↔ Candidate m l' k v :=
  or_congr_right (h (k, v))

/-- **After offers a key holds the greatest candidate**, when different candidates of a key have
different ranks. -/
theorem offerAll_eq_some_iff (hinj : ∀ v w, Candidate m l k v → Candidate m l k w →
    rank k v = rank k w → v = w) :
    offerAll rank m l k = some v ↔
      Candidate m l k v ∧ ∀ w, Candidate m l k w → rank k w ≤ rank k v := by
  constructor
  · intro h
    refine ⟨candidate_of_offerAll h, fun w hw => ?_⟩
    have hdominates : Dominates rank (offerAll rank m l) k w := dominates_offerAll hw
    obtain ⟨x, hx, hle⟩ := hdominates
    obtain rfl : v = x := by simpa [h] using hx
    exact hle
  · rintro ⟨hv, hgreatest⟩
    have hdominates : Dominates rank (offerAll rank m l) k v := dominates_offerAll hv
    obtain ⟨x, hx, hle⟩ := hdominates
    have hx' := candidate_of_offerAll hx
    rw [hinj v x hv hx' (le_antisymm hle (hgreatest x hx')), hx]

/-- **The order and the number of the offers do not matter.** -/
theorem offerAll_congr (h : ∀ r, r ∈ l ↔ r ∈ l') (hinj : ∀ k v w, Candidate m l k v →
    Candidate m l k w → rank k v = rank k w → v = w) :
    offerAll rank m l = offerAll rank m l' := by
  funext k
  refine Option.ext fun v => ?_
  have hinj' : ∀ v w, Candidate m l' k v → Candidate m l' k w → rank k v = rank k w → v = w :=
    fun v w hv hw => hinj k v w ((Candidate.congr h).2 hv) ((Candidate.congr h).2 hw)
  rw [offerAll_eq_some_iff (hinj k), offerAll_eq_some_iff hinj']
  simp only [Candidate.congr h]

end OfferAll

/-! ## Joins -/

omit [DecidableEq κ]

variable (rank) in
/-- `m` is above `m₁` and `m₂` and holds nothing that neither of them holds. -/
structure IsJoin (m m₁ m₂ : κ → Option ν) : Prop where
  left : Below rank m₁ m
  right : Below rank m₂ m
  only : ∀ k v, m k = some v → m₁ k = some v ∨ m₂ k = some v

/-- What a join holds has the greatest rank among the values of both sides. -/
theorem IsJoin.rank_le (h : IsJoin rank m m₁ m₂) (hv : m k = some v)
    (hw : m₁ k = some w ∨ m₂ k = some w) : rank k w ≤ rank k v := by
  obtain ⟨x, hx, hwx⟩ := hw.elim (h.left k w) (h.right k w)
  obtain rfl : v = x := by simpa [hv] using hx
  exact hwx

theorem IsJoin.le_of (h : IsJoin rank m m₁ m₂) (h' : IsJoin rank m' m₁ m₂)
    (hinj : ∀ k v w, (m₁ k = some v ∨ m₂ k = some v) → (m₁ k = some w ∨ m₂ k = some w) →
      rank k v = rank k w → v = w) (hv : m k = some v) : m' k = some v := by
  have hv' := h.only k v hv
  obtain ⟨w, hw, -⟩ := hv'.elim (h'.left k v) (h'.right k v)
  have hw' := h'.only k w hw
  obtain rfl := hinj k v w hv' hw' (le_antisymm (h'.rank_le hw hv') (h.rank_le hv hw'))
  exact hw

/-- **There is one join**, when different values of a key have different ranks. -/
theorem IsJoin.unique (h : IsJoin rank m m₁ m₂) (h' : IsJoin rank m' m₁ m₂)
    (hinj : ∀ k v w, (m₁ k = some v ∨ m₂ k = some v) → (m₁ k = some w ∨ m₂ k = some w) →
      rank k v = rank k w → v = w) : m = m' := by
  funext k
  refine Option.ext fun v => ?_
  exact ⟨h.le_of h' hinj, h'.le_of h hinj⟩

/-! ## The rows of a finite table -/

/-- The finite set of the rows of a table. -/
def Rows (m : κ → Option ν) (s : Finset (κ × ν)) : Prop := ∀ k v, (k, v) ∈ s ↔ m k = some v

variable {s t : Finset (κ × ν)}

theorem Rows.unique (hs : Rows m s) (ht : Rows m t) : s = t := by
  ext ⟨k, v⟩
  rw [hs, ht]

variable [DecidableEq κ] [DecidableEq ν]

theorem Rows.update (hs : Rows m s) (k : κ) (v : ν) :
    Rows (Function.update m k (some v)) (insert (k, v) (s.filter fun r => r.1 ≠ k)) := by
  intro j w
  by_cases hj : j = k
  · subst hj
    simp [Function.update_self, eq_comm]
  · simp [hj, hs j w]

/-- A write adds one row at most. -/
theorem Rows.card_update_le (hs : Rows m s) (ht : Rows (Function.update m k (some v)) t) :
    t.card ≤ s.card + 1 := by
  rw [ht.unique (hs.update k v)]
  refine (Finset.card_insert_le _ _).trans (Nat.add_le_add_right ?_ 1)
  exact Finset.card_filter_le _ _

omit [DecidableEq ν] in
/-- A table that grows does not get fewer rows. -/
theorem Rows.card_le_of_below (hs : Rows m s) (ht : Rows m' t) (h : Below rank m m') :
    s.card ≤ t.card := by
  have hinj : Set.InjOn Prod.fst (s : Set (κ × ν)) := by
    rintro ⟨k, v⟩ hr ⟨_, w⟩ hr' rfl
    have hv := (hs k v).1 hr
    rw [(hs k w).1 hr'] at hv
    rw [Option.some.inj hv]
  have hkeys : s.image Prod.fst ⊆ t.image Prod.fst := by
    intro k hk
    obtain ⟨⟨k, v⟩, hr, rfl⟩ := Finset.mem_image.1 hk
    obtain ⟨w, hw, -⟩ := h k v ((hs k v).1 hr)
    exact Finset.mem_image.2 ⟨(k, w), (ht k w).2 hw, rfl⟩
  calc s.card = (s.image Prod.fst).card := (Finset.card_image_of_injOn hinj).symm
    _ ≤ (t.image Prod.fst).card := Finset.card_le_card hkeys
    _ ≤ t.card := Finset.card_image_le

/-- **A sum over the rows after a write**: the row written enters the sum and the row it
replaces, if any, leaves it. -/
theorem Rows.sum_update {H : Type*} [AddCommGroup H] (hs : Rows m s)
    (ht : Rows (Function.update m k (some v)) t) (g : κ × ν → H) :
    ∑ r ∈ t, g r = ∑ r ∈ s, g r - (m k).elim 0 (fun c => g (k, c)) + g (k, v) := by
  rw [ht.unique (hs.update k v), Finset.sum_insert (by simp), add_comm]
  congr 1
  rw [eq_sub_iff_add_eq, ← Finset.sum_filter_add_sum_filter_not s (fun r => r.1 ≠ k) g]
  congr 1
  cases hk : m k with
  | none =>
    rw [Option.elim_none, Finset.sum_eq_zero]
    intro ⟨j, w⟩ hj
    simp only [Finset.mem_filter, not_not] at hj
    obtain ⟨hj, rfl⟩ := hj
    simp [hs j w, hk] at hj
  | some c =>
    rw [Option.elim_some, Finset.sum_eq_single (k, c)]
    · intro ⟨j, w⟩ hj hne
      simp only [Finset.mem_filter, not_not] at hj
      obtain ⟨hj, rfl⟩ := hj
      rw [hs j w, hk] at hj
      exact absurd (by rw [Option.some.inj hj]) hne
    · intro h
      exact absurd (Finset.mem_filter.2 ⟨(hs k c).2 hk, by simp⟩) h

end InterstellarDb.GreatestWins
