import InterstellarDb.Foundations.Atomic.Pool

/-!
# Runs that stop

A process may die between any two operations of a program (`Stopped`). Where every operation that
the program may perform can answer without changing what survives, dying is failing: what a stopped
run leaves behind is what some whole run of the program leaves behind (`Stopped.exists_alone`).
-/

namespace InterstellarDb.Atomic

variable {S : Sig} {σ : Type} {α β : Type} {P : Protocol S} {Q : α → P.Ghost → Prop}

/-- A run that nobody interferes with, up to any moment. -/
def Stopped (sem : Sem S σ) : Prog S α → σ → σ → Prop
  | .ret _, s, s' => s' = s
  | .call o k, s, s' => s' = s ∨ ∃ r s₁, sem o s r s₁ ∧ Stopped sem (k r) s₁ s'

/-- A whole run is one that stops at the end. -/
theorem Stopped.of_alone {sem : Sem S σ} {p : Prog S α} {a : α} {s s' : σ}
    (h : Alone sem p s a s') : Stopped sem p s s' := by
  induction p generalizing s with
  | ret b => exact (alone_ret.1 h).1
  | call o k ih =>
    obtain ⟨r, s₁, ho, h⟩ := alone_call.1 h
    exact .inr ⟨r, s₁, ho, ih r h⟩

/-- A semantics that does more stops at more states. -/
theorem Stopped.mono {sem sem' : Sem S σ} (hsem : ∀ o s r s', sem o s r s' → sem' o s r s')
    {p : Prog S α} {s s' : σ} (h : Stopped sem p s s') : Stopped sem' p s s' := by
  induction p generalizing s with
  | ret a => exact h
  | call o k ih =>
    rcases h with rfl | ⟨r, s₁, ho, h⟩
    · exact .inl rfl
    · exact .inr ⟨r, s₁, hsem o s r s₁ ho, ih r h⟩

/-- The operations that a protocol allows keep `J`, and each can answer without changing the
view. -/
structure Survives (P : Protocol S) (sem : Sem S σ) (J : P.Ghost → σ → Prop) (view : σ → β) :
    Prop where
  step : ∀ g o s r s', J g s → P.allow g o → sem o s r s' → J (P.next g o r) s'
  answers : ∀ g o s, J g s → P.allow g o → ∃ r s', sem o s r s' ∧ view s' = view s

variable {sem : Sem S σ} {J : P.Ghost → σ → Prop} {view : σ → β} {g : P.Ghost} {p : Prog S α}
  {s s' : σ}

/-- A program can end without changing the view. -/
theorem Survives.exists_alone (hv : Survives P sem J view) (hp : Follows P Q g p) (hs : J g s) :
    ∃ a s', Alone sem p s a s' ∧ view s' = view s := by
  induction p generalizing g s with
  | ret a => exact ⟨a, s, alone_ret.2 ⟨rfl, rfl⟩, rfl⟩
  | call o k ih =>
    obtain ⟨hallow, hrest⟩ := hp
    obtain ⟨r, s₁, ho, hview⟩ := hv.answers g o s hs hallow
    obtain ⟨a, s₂, hrun, hview'⟩ := ih r (hrest r) (hv.step g o s r s₁ hs hallow ho)
    exact ⟨a, s₂, alone_call.2 ⟨r, s₁, ho, hrun⟩, hview'.trans hview⟩

/-- **What a stopped run leaves behind**, a whole run can leave behind. -/
theorem Stopped.exists_alone (hv : Survives P sem J view) (hp : Follows P Q g p) (hs : J g s)
    (h : Stopped sem p s s') : ∃ a t, Alone sem p s a t ∧ view t = view s' := by
  induction p generalizing g s with
  | ret a =>
    obtain rfl : s' = s := h
    exact ⟨a, s', alone_ret.2 ⟨rfl, rfl⟩, rfl⟩
  | call o k ih =>
    rcases h with rfl | ⟨r, s₁, ho, h⟩
    · exact hv.exists_alone hp hs
    · obtain ⟨hallow, hrest⟩ := hp
      obtain ⟨a, t, hrun, hview⟩ := ih r (hrest r) (hv.step g o s r s₁ hs hallow ho) h
      exact ⟨a, t, alone_call.2 ⟨r, s₁, ho, hrun⟩, hview⟩

end InterstellarDb.Atomic
