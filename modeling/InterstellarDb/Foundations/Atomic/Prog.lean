import Mathlib.Logic.Relation

/-!
# Programs over atomic operations

Asynchronous code is a sequence of atomic sections: a critical section under a lock, a commit,
a remote call. A program is the tree of these sections, each followed by a continuation on its
answer, and what a section does to the shared state is given apart from the program, as a
relation.

* `Prog S α` is a monad, so code is written in `do` notation.
* `Run R sem p s a s'` runs `p` from `s` to the result `a` in `s'`, the environment making
  `R`-moves before every operation and after the last. With `R` equality nobody interferes
  (`Alone`).
* `logged sem` records the operations performed and the states they met.
* `Prog.exec` runs a program under a deterministic semantics, for concrete runs
  (`alone_of_exec`).
-/

namespace InterstellarDb.Atomic

/-- A signature: the atomic operations, and the type of the answer of each. -/
structure Sig where
  Op : Type
  Resp : Op → Type

/-- Programs: a result, or an operation and a continuation on its answer. -/
inductive Prog (S : Sig) (α : Type) where
  | ret (a : α)
  | call (o : S.Op) (k : S.Resp o → Prog S α)

variable {S : Sig} {σ : Type} {α β : Type}

namespace Prog

/-- Run `f` on the result of a program. -/
def bind : Prog S α → (α → Prog S β) → Prog S β
  | .ret a, f => f a
  | .call o k, f => .call o fun r => (k r).bind f

instance : Monad (Prog S) where
  pure := .ret
  bind := bind

@[simp] theorem pure_eq (a : α) : (pure a : Prog S α) = .ret a := rfl

@[simp] theorem ret_bind (a : α) (f : α → Prog S β) : (Prog.ret a >>= f) = f a := rfl

@[simp] theorem call_bind (o : S.Op) (k : S.Resp o → Prog S α) (f : α → Prog S β) :
    (Prog.call o k >>= f) = .call o fun r => k r >>= f := rfl

theorem bind_ret (p : Prog S α) : (p >>= fun a => .ret a) = p := by
  induction p with
  | ret a => rfl
  | call o k ih => simp only [call_bind, ih]

theorem bind_assoc {γ : Type} (p : Prog S α) (f : α → Prog S β) (g : β → Prog S γ) :
    (p >>= f) >>= g = p >>= fun a => f a >>= g := by
  induction p with
  | ret a => rfl
  | call o k ih => simp only [call_bind, ih]

instance : LawfulMonad (Prog S) :=
  LawfulMonad.mk' _ bind_ret (fun _ _ => rfl) bind_assoc

end Prog

/-- Perform one operation. -/
def op (o : S.Op) : Prog S (S.Resp o) := .call o .ret

/-! ## Runs -/

/-- What each operation does: the states it leads to and its answers. -/
abbrev Sem (S : Sig) (σ : Type) := (o : S.Op) → σ → S.Resp o → σ → Prop

/-- `Run R sem p s a s'`: `p` runs from `s` to the result `a` in `s'`, the environment making a
move of `R` before each operation and after the last one. -/
def Run (R : σ → σ → Prop) (sem : Sem S σ) : Prog S α → σ → α → σ → Prop
  | .ret a, s, b, s' => R s s' ∧ b = a
  | .call o k, s, b, s' => ∃ s₁ r s₂, R s s₁ ∧ sem o s₁ r s₂ ∧ Run R sem (k r) s₂ b s'

/-- A run that nobody interferes with. -/
abbrev Alone (sem : Sem S σ) : Prog S α → σ → α → σ → Prop := Run Eq sem

section Run

variable {R : σ → σ → Prop} {sem : Sem S σ} {s s' : σ} {a : α} {b : β}

theorem run_ret {c : β} : Run R sem (.ret c) s b s' ↔ R s s' ∧ b = c := Iff.rfl

theorem run_call {o : S.Op} {k : S.Resp o → Prog S β} :
    Run R sem (.call o k) s b s' ↔
      ∃ s₁ r s₂, R s s₁ ∧ sem o s₁ r s₂ ∧ Run R sem (k r) s₂ b s' := Iff.rfl

/-- A run of a sequence is a run of its first part and then one of the rest. -/
theorem run_bind (refl : ∀ s, R s s) {p : Prog S α} {f : α → Prog S β}
    (h : Run R sem (p >>= f) s b s') :
    ∃ a s₁, Run R sem p s a s₁ ∧ Run R sem (f a) s₁ b s' := by
  induction p generalizing s with
  | ret a => exact ⟨a, s, ⟨refl s, rfl⟩, h⟩
  | call o k ih =>
    obtain ⟨s₁, r, s₂, hR, ho, hk⟩ := h
    obtain ⟨a, s₃, h₁, h₂⟩ := ih r hk
    exact ⟨a, s₃, ⟨s₁, r, s₂, hR, ho, h₁⟩, h₂⟩

/-- A run of one operation. -/
theorem run_op {o : S.Op} {r : S.Resp o} :
    Run R sem (op o) s r s' ↔ ∃ s₁ s₂, R s s₁ ∧ sem o s₁ r s₂ ∧ R s₂ s' := by
  constructor
  · rintro ⟨s₁, r', s₂, h₁, h₂, h₃, rfl⟩
    exact ⟨s₁, s₂, h₁, h₂, h₃⟩
  · rintro ⟨s₁, s₂, h₁, h₂, h₃⟩
    exact ⟨s₁, r, s₂, h₁, h₂, h₃, rfl⟩

/-- More interference allows more runs. -/
theorem Run.mono {R' : σ → σ → Prop} (hR : ∀ s s', R s s' → R' s s') {p : Prog S α}
    (h : Run R sem p s a s') : Run R' sem p s a s' := by
  induction p generalizing s with
  | ret _ => exact ⟨hR _ _ h.1, h.2⟩
  | call o k ih =>
    obtain ⟨s₁, r, s₂, h₁, h₂, h₃⟩ := h
    exact ⟨s₁, r, s₂, hR _ _ h₁, h₂, ih r h₃⟩

/-- What every environment move and every operation preserves, a run preserves. -/
theorem Run.preserves {I : σ → Prop} (hR : ∀ s s', R s s' → I s → I s')
    (hop : ∀ o s r s', sem o s r s' → I s → I s') {p : Prog S α} (h : Run R sem p s a s')
    (hs : I s) : I s' := by
  induction p generalizing s with
  | ret _ => exact hR _ _ h.1 hs
  | call o k ih =>
    obtain ⟨s₁, r, s₂, h₁, h₂, h₃⟩ := h
    exact ih r h₃ (hop o _ _ _ h₂ (hR _ _ h₁ hs))

end Run

section Alone

variable {sem : Sem S σ} {s s' : σ} {a : α} {b : β}

@[simp] theorem alone_ret {c : β} : Alone sem (.ret c) s b s' ↔ s' = s ∧ b = c :=
  run_ret.trans (and_congr_left' eq_comm)

theorem alone_call {o : S.Op} {k : S.Resp o → Prog S β} :
    Alone sem (.call o k) s b s' ↔ ∃ r s₂, sem o s r s₂ ∧ Alone sem (k r) s₂ b s' := by
  simp only [run_call]
  constructor
  · rintro ⟨_, r, s₂, rfl, h₁, h₂⟩
    exact ⟨r, s₂, h₁, h₂⟩
  · rintro ⟨r, s₂, h₁, h₂⟩
    exact ⟨s, r, s₂, rfl, h₁, h₂⟩

theorem alone_bind {p : Prog S α} {f : α → Prog S β} :
    Alone sem (p >>= f) s b s' ↔ ∃ a s₁, Alone sem p s a s₁ ∧ Alone sem (f a) s₁ b s' := by
  refine ⟨run_bind fun _ => rfl, ?_⟩
  rintro ⟨a, s₁, h₁, h₂⟩
  induction p generalizing s with
  | ret a' =>
    obtain ⟨rfl, rfl⟩ := h₁
    exact h₂
  | call o k ih =>
    obtain ⟨_, r, s₂, rfl, ho, hk⟩ := h₁
    exact ⟨s, r, s₂, rfl, ho, ih r hk⟩

@[simp] theorem alone_op {o : S.Op} {r : S.Resp o} : Alone sem (op o) s r s' ↔ sem o s r s' := by
  refine run_op.trans ⟨?_, fun h => ⟨s, s', rfl, h, rfl⟩⟩
  rintro ⟨_, _, rfl, h, rfl⟩
  exact h

end Alone

/-! ## Logged runs -/

/-- The semantics that also logs, oldest first, each operation with the state it met. -/
def logged (sem : Sem S σ) : Sem S (σ × List (S.Op × σ)) := fun o s r s' =>
  sem o s.1 r s'.1 ∧ s'.2 = s.2 ++ [(o, s.1)]

/-- Moves that leave the log alone. -/
def unlogged (R : σ → σ → Prop) : σ × List (S.Op × σ) → σ × List (S.Op × σ) → Prop :=
  fun s s' => R s.1 s'.1 ∧ s'.2 = s.2

/-- A logged run that nobody interferes with is one under any interference. -/
theorem Run.logged_mono {R : σ → σ → Prop} (refl : ∀ s, R s s) {sem : Sem S σ} {p : Prog S α}
    {s s' : σ × List (S.Op × σ)} {a : α} (h : Run (unlogged Eq) (logged sem) p s a s') :
    Run (unlogged R) (logged sem) p s a s' :=
  h.mono fun s _ hs => ⟨hs.1 ▸ refl s.1, hs.2⟩

/-- Forgetting the log of a run leaves a run. -/
theorem Run.of_logged {R : σ → σ → Prop} {sem : Sem S σ} {p : Prog S α}
    {s s' : σ × List (S.Op × σ)} {a : α} (h : Run (unlogged R) (logged sem) p s a s') :
    Run R sem p s.1 a s'.1 := by
  induction p generalizing s with
  | ret _ => exact ⟨h.1.1, h.2⟩
  | call o k ih =>
    obtain ⟨s₁, r, s₂, h₁, h₂, h₃⟩ := h
    exact ⟨s₁.1, r, s₂.1, h₁.1, h₂.1, ih r h₃⟩

/-- A run adds to the log. -/
theorem Run.exists_log {R : σ → σ → Prop} {sem : Sem S σ} {p : Prog S α}
    {s s' : σ × List (S.Op × σ)} {a : α} (h : Run (unlogged R) (logged sem) p s a s') :
    ∃ log, s'.2 = s.2 ++ log := by
  induction p generalizing s with
  | ret _ => exact ⟨[], by rw [h.1.2, List.append_nil]⟩
  | call o k ih =>
    obtain ⟨s₁, r, s₂, h₁, h₂, h₃⟩ := h
    obtain ⟨log, hlog⟩ := ih r h₃
    exact ⟨(o, s₁.1) :: log, by rw [hlog, h₂.2, h₁.2, List.append_assoc, List.singleton_append]⟩

/-- Every run can be logged. -/
theorem Run.exists_logged {R : σ → σ → Prop} {sem : Sem S σ} {p : Prog S α} {s s' : σ} {a : α}
    (h : Run R sem p s a s') (past : List (S.Op × σ)) :
    ∃ log, Run (unlogged R) (logged sem) p (s, past) a (s', past ++ log) := by
  induction p generalizing s past with
  | ret _ => exact ⟨[], ⟨h.1, List.append_nil past⟩, h.2⟩
  | call o k ih =>
    obtain ⟨s₁, r, s₂, h₁, h₂, h₃⟩ := h
    obtain ⟨log, hlog⟩ := ih r h₃ (past ++ [(o, s₁)])
    rw [List.append_assoc] at hlog
    exact ⟨(o, s₁) :: log, (s₁, past), r, (s₂, past ++ [(o, s₁)]), ⟨h₁, rfl⟩, ⟨h₂, rfl⟩, hlog⟩

/-! ## Deterministic runs -/

/-- Run a program under a deterministic semantics; `none` when an operation cannot proceed. -/
def Prog.exec (f : (o : S.Op) → σ → Option (S.Resp o × σ)) : Prog S α → σ → Option (α × σ)
  | .ret a, s => some (a, s)
  | .call o k, s =>
    match f o s with
    | none => none
    | some (r, s') => (k r).exec f s'

/-- The first operation of a program answers, and the program goes on. -/
theorem Prog.exec_call {f : (o : S.Op) → σ → Option (S.Resp o × σ)} {o : S.Op}
    {k : S.Resp o → Prog S α} {r : S.Resp o} {s s' : σ} (h : f o s = some (r, s')) :
    (Prog.call o k).exec f s = (k r).exec f s' := by
  rw [Prog.exec, h]

theorem Prog.exec_bind (f : (o : S.Op) → σ → Option (S.Resp o × σ)) (p : Prog S α)
    (k : α → Prog S β) (s : σ) :
    (p >>= k).exec f s = (p.exec f s).bind fun x => (k x.1).exec f x.2 := by
  induction p generalizing s with
  | ret a => rfl
  | call o g ih =>
    rw [call_bind, exec, exec]
    cases f o s with
    | none => rfl
    | some x => exact ih x.1 x.2

theorem alone_of_exec {sem : Sem S σ} {f : (o : S.Op) → σ → Option (S.Resp o × σ)}
    (hf : ∀ o s r s', f o s = some (r, s') → sem o s r s') {p : Prog S α} {s s' : σ} {a : α}
    (h : p.exec f s = some (a, s')) : Alone sem p s a s' := by
  induction p generalizing s with
  | ret b =>
    simp only [Prog.exec, Option.some.injEq, Prod.mk.injEq] at h
    exact ⟨h.2, h.1.symm⟩
  | call o k ih =>
    rw [Prog.exec] at h
    split at h
    · cases h
    · rename_i r s₂ ho
      exact alone_call.2 ⟨r, s₂, hf _ _ _ _ ho, ih r h⟩

theorem exec_of_alone {sem : Sem S σ} {f : (o : S.Op) → σ → Option (S.Resp o × σ)}
    (hf : ∀ o s r s', sem o s r s' → f o s = some (r, s')) {p : Prog S α} {s s' : σ} {a : α}
    (h : Alone sem p s a s') : p.exec f s = some (a, s') := by
  induction p generalizing s with
  | ret b =>
    obtain ⟨rfl, rfl⟩ := alone_ret.1 h
    rfl
  | call o k ih =>
    obtain ⟨r, s₂, ho, h⟩ := alone_call.1 h
    rw [Prog.exec, hf _ _ _ _ ho]
    exact ih r h

end InterstellarDb.Atomic
