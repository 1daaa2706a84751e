import InterstellarDb.Foundations.Atomic.Pool

/-!
# Traces

`Traced sem p s t a s'` is a run of `p` that nobody interferes with, together with its trace `t`:
the operations that it performed, each with the state it met and the answer it got. The trace of a
sequence is that of its first part followed by that of the rest (`traced_bind`). A program that
follows a protocol performs, at every point of a trace, an operation that the protocol allows there
(`Follows.allowed`), and the log of a run, whoever interferes, records such operations only
(`Run.forall_log`).

`Dropped sem drop p s t s'` is a run that is dropped while it awaits an operation, so that nothing
of the rest is run.
-/

namespace InterstellarDb.Atomic

variable {S : Sig} {σ : Type} {α β : Type}

/-- An operation of a run: the state it met, and the answer it got. -/
structure Event (S : Sig) (σ : Type) where
  op : S.Op
  met : σ
  answer : S.Resp op

/-- `p` runs from `s` to the result `a` in `s'`, performing the operations of the trace. -/
def Traced (sem : Sem S σ) : Prog S α → σ → List (Event S σ) → α → σ → Prop
  | .ret a, s, t, b, s' => t = [] ∧ s' = s ∧ b = a
  | .call o k, s, t, b, s' => ∃ r s₁ t', t = ⟨o, s, r⟩ :: t' ∧ sem o s r s₁ ∧
      Traced sem (k r) s₁ t' b s'

section Traced

variable {sem : Sem S σ} {s s' : σ} {t : List (Event S σ)} {a : α} {b : β}

/-- **The trace of a sequence** is that of its first part, then that of the rest. -/
theorem traced_bind {p : Prog S α} {f : α → Prog S β} :
    Traced sem (p >>= f) s t b s' ↔ ∃ t₁ a s₁ t₂, t = t₁ ++ t₂ ∧ Traced sem p s t₁ a s₁ ∧
      Traced sem (f a) s₁ t₂ b s' := by
  induction p generalizing s t with
  | ret a =>
    constructor
    · intro h
      exact ⟨[], a, s, t, rfl, ⟨rfl, rfl, rfl⟩, h⟩
    · rintro ⟨_, _, _, t₂, rfl, ⟨rfl, rfl, rfl⟩, h⟩
      exact h
  | call o k ih =>
    constructor
    · rintro ⟨r, s₁, t', rfl, ho, h⟩
      obtain ⟨t₁, a, s₂, t₂, rfl, h₁, h₂⟩ := (ih r).1 h
      exact ⟨_ :: t₁, a, s₂, t₂, rfl, ⟨r, s₁, t₁, rfl, ho, h₁⟩, h₂⟩
    · rintro ⟨_, a, s₂, t₂, rfl, ⟨r, s₁, t₁, rfl, ho, h₁⟩, h₂⟩
      exact ⟨r, s₁, t₁ ++ t₂, rfl, ho, (ih r).2 ⟨t₁, a, s₂, t₂, rfl, h₁, h₂⟩⟩

theorem traced_op_bind {o : S.Op} {f : S.Resp o → Prog S β} :
    Traced sem (op o >>= f) s t b s' ↔ ∃ r s₁ t', t = ⟨o, s, r⟩ :: t' ∧ sem o s r s₁ ∧
      Traced sem (f r) s₁ t' b s' := Iff.rfl

/-- Forgetting the trace of a run leaves a run. -/
theorem Traced.alone {p : Prog S α} (h : Traced sem p s t a s') : Alone sem p s a s' := by
  induction p generalizing s t with
  | ret c =>
    obtain ⟨-, rfl, rfl⟩ := h
    exact alone_ret.2 ⟨rfl, rfl⟩
  | call o k ih =>
    obtain ⟨r, s₁, t', -, ho, h⟩ := h
    exact alone_call.2 ⟨r, s₁, ho, ih r h⟩

/-- Every run that nobody interferes with has a trace. -/
theorem exists_traced {p : Prog S α} (h : Alone sem p s a s') : ∃ t, Traced sem p s t a s' := by
  induction p generalizing s with
  | ret c =>
    obtain ⟨rfl, rfl⟩ := alone_ret.1 h
    exact ⟨[], rfl, rfl, rfl⟩
  | call o k ih =>
    obtain ⟨r, s₁, ho, h⟩ := alone_call.1 h
    obtain ⟨t, ht⟩ := ih r h
    exact ⟨_ :: t, r, s₁, t, rfl, ho, ht⟩

/-- Where every operation has an answer, every program runs to its end. -/
theorem exists_traced_of_total {I : σ → Prop}
    (htotal : ∀ o s, I s → ∃ r s', sem o s r s' ∧ I s') (p : Prog S α) (hs : I s) :
    ∃ t a s', Traced sem p s t a s' := by
  induction p generalizing s with
  | ret a => exact ⟨[], a, s, rfl, rfl, rfl⟩
  | call o k ih =>
    obtain ⟨r, s₁, ho, hs₁⟩ := htotal o s hs
    obtain ⟨t, a, s', h⟩ := ih r hs₁
    exact ⟨_, a, s', r, s₁, t, rfl, ho, h⟩

/-- The operations of a trace, performed one after another. -/
def Steps (sem : Sem S σ) : σ → List (Event S σ) → σ → Prop
  | s, [], s' => s' = s
  | s, x :: t, s' => ∃ s₁, sem x.op s x.answer s₁ ∧ Steps sem s₁ t s'

theorem Traced.steps {p : Prog S α} (h : Traced sem p s t a s') : Steps sem s t s' := by
  induction p generalizing s t with
  | ret c =>
    obtain ⟨rfl, rfl, -⟩ := h
    rfl
  | call o k ih =>
    obtain ⟨r, s₁, t', rfl, ho, h⟩ := h
    exact ⟨s₁, ho, ih r h⟩

end Traced

/-! ## Traces of programs that follow a protocol -/

variable {P : Protocol S}

/-- The ghost value after a trace. -/
def Protocol.after (P : Protocol S) (g : P.Ghost) (t : List (Event S σ)) : P.Ghost :=
  t.foldl (fun g x => P.next g x.op x.answer) g

/-- **A program that follows a protocol** performs allowed operations only, and ends as it
should. -/
theorem Follows.allowed {Q : α → P.Ghost → Prop} {g : P.Ghost} {p : Prog S α}
    (h : Follows P Q g p) {sem : Sem S σ} {s s' : σ} {t : List (Event S σ)} {a : α}
    (ht : Traced sem p s t a s') :
    Q a (P.after g t) ∧ ∀ t₁ x t₂, t = t₁ ++ x :: t₂ → P.allow (P.after g t₁) x.op := by
  induction p generalizing g s t with
  | ret c =>
    obtain ⟨rfl, -, rfl⟩ := ht
    refine ⟨h, fun t₁ x t₂ heq => ?_⟩
    exact absurd heq (by simp)
  | call o k ih =>
    obtain ⟨r, s₁, t', rfl, -, ht⟩ := ht
    obtain ⟨hQ, hall⟩ := ih r (h.2 r) ht
    refine ⟨hQ, fun t₁ x t₂ heq => ?_⟩
    cases t₁ with
    | nil =>
      obtain ⟨rfl, -⟩ := List.cons.inj heq
      exact h.1
    | cons y t₁ =>
      obtain ⟨rfl, htail⟩ := List.cons.inj heq
      exact hall t₁ x t₂ htail

/-! ## Logs -/

/-- The protocol of a thread that performs operations of `C` only. -/
def Protocol.only (C : S.Op → Prop) : Protocol S := ⟨Unit, fun _ o => C o, fun _ _ _ => ()⟩

theorem Protocol.neutral_only {C : S.Op → Prop} {o : S.Op} (h : C o) :
    (Protocol.only C).Neutral () o := ⟨h, fun _ => rfl⟩

/-- A program that performs operations of `C` only has only such operations in its traces. -/
theorem Traced.forall_op {sem : Sem S σ} {C : S.Op → Prop} {Q : α → Unit → Prop} {p : Prog S α}
    {s s' : σ} {t : List (Event S σ)} {a : α} (h : Traced sem p s t a s')
    (hf : Follows (.only C) Q () p) : ∀ x ∈ t, C x.op := by
  intro x hx
  obtain ⟨t₁, t₂, rfl⟩ := List.append_of_mem hx
  exact (hf.allowed h).2 t₁ x t₂ rfl

/-- **What a log records**: operations that the program may perform, in states that keep what the
environment and every operation preserve. -/
theorem Run.forall_log {R : σ → σ → Prop} {sem : Sem S σ} {C : S.Op → Prop} {I : σ → Prop}
    (hR : ∀ s s', R s s' → I s → I s') (hop : ∀ o s r s', sem o s r s' → I s → I s')
    {Q : α → Unit → Prop} {p : Prog S α} {s s' : σ × List (S.Op × σ)} {a : α}
    (hf : Follows (.only C) Q () p) (h : Run (unlogged R) (logged sem) p s a s') (hs : I s.1)
    (hpast : ∀ x ∈ s.2, C x.1 ∧ I x.2) : ∀ x ∈ s'.2, C x.1 ∧ I x.2 := by
  induction p generalizing s with
  | ret _ =>
    rw [h.1.2]
    exact hpast
  | call o k ih =>
    obtain ⟨s₁, r, s₂, ⟨hmove, hlog₁⟩, ⟨ho, hlog₂⟩, hrest⟩ := h
    have hs₁ := hR _ _ hmove hs
    refine ih r (hf.2 r) hrest (hop o _ _ _ ho hs₁) fun x hx => ?_
    rw [hlog₂, hlog₁, List.mem_append, List.mem_singleton] at hx
    rcases hx with hx | rfl
    · exact hpast x hx
    · exact ⟨hf.1, hs₁⟩

/-! ## Dropped runs -/

/-- From `s`, `p` performs the operations of the trace and is dropped while it awaits the next one;
`drop o` relates the states before and after dropping a program that awaits `o`. -/
def Dropped (sem : Sem S σ) (drop : S.Op → σ → σ → Prop) :
    Prog S α → σ → List (Event S σ) → σ → Prop
  | .ret _, _, _, _ => False
  | .call o k, s, t, s' => t = [] ∧ drop o s s' ∨ ∃ r s₁ t', t = ⟨o, s, r⟩ :: t' ∧ sem o s r s₁ ∧
      Dropped sem drop (k r) s₁ t' s'

section Dropped

variable {sem : Sem S σ} {drop : S.Op → σ → σ → Prop} {s s' : σ} {t : List (Event S σ)}

theorem not_dropped_ret {a : α} : ¬ Dropped sem drop (.ret a : Prog S α) s t s' := id

theorem exists_dropped_of_drop {o : S.Op} {k : S.Resp o → Prog S β} (h : drop o s s') :
    ∃ t, Dropped sem drop (.call o k) s t s' :=
  ⟨[], .inl ⟨rfl, h⟩⟩

theorem exists_dropped_of_sem {o : S.Op} {k : S.Resp o → Prog S β} {r : S.Resp o} {s₁ : σ}
    (ho : sem o s r s₁) (h : ∃ t, Dropped sem drop (k r) s₁ t s') :
    ∃ t, Dropped sem drop (.call o k) s t s' := by
  obtain ⟨t, ht⟩ := h
  exact ⟨⟨o, s, r⟩ :: t, .inr ⟨r, s₁, t, rfl, ho, ht⟩⟩

theorem dropped_op_bind {o : S.Op} {f : S.Resp o → Prog S β} :
    Dropped sem drop (op o >>= f) s t s' ↔ t = [] ∧ drop o s s' ∨ ∃ r s₁ t', t = ⟨o, s, r⟩ :: t' ∧
      sem o s r s₁ ∧ Dropped sem drop (f r) s₁ t' s' := Iff.rfl

theorem dropped_op {o : S.Op} : Dropped sem drop (op o) s t s' ↔ t = [] ∧ drop o s s' := by
  refine or_iff_left ?_
  rintro ⟨r, s₁, t', -, -, h⟩
  exact h

/-- **A sequence is dropped** in its first part, or after it in the rest. -/
theorem dropped_bind {p : Prog S α} {f : α → Prog S β} :
    Dropped sem drop (p >>= f) s t s' ↔ Dropped sem drop p s t s' ∨ ∃ t₁ a s₁ t₂, t = t₁ ++ t₂ ∧
      Traced sem p s t₁ a s₁ ∧ Dropped sem drop (f a) s₁ t₂ s' := by
  induction p generalizing s t with
  | ret a =>
    constructor
    · intro h
      exact .inr ⟨[], a, s, t, rfl, ⟨rfl, rfl, rfl⟩, h⟩
    · rintro (h | ⟨_, _, _, t₂, rfl, ⟨rfl, rfl, rfl⟩, h⟩)
      · exact h.elim
      · exact h
  | call o k ih =>
    constructor
    · rintro (h | ⟨r, s₁, t', rfl, ho, h⟩)
      · exact .inl (.inl h)
      · rcases (ih r).1 h with h | ⟨t₁, a, s₂, t₂, rfl, h₁, h₂⟩
        · exact .inl (.inr ⟨r, s₁, t', rfl, ho, h⟩)
        · exact .inr ⟨_ :: t₁, a, s₂, t₂, rfl, ⟨r, s₁, t₁, rfl, ho, h₁⟩, h₂⟩
    · rintro ((h | ⟨r, s₁, t', rfl, ho, h⟩) | ⟨_, a, s₂, t₂, rfl, ⟨r, s₁, t₁, rfl, ho, h₁⟩, h₂⟩)
      · exact .inl h
      · exact .inr ⟨r, s₁, t', rfl, ho, (ih r).2 (.inl h)⟩
      · exact .inr ⟨r, s₁, t₁ ++ t₂, rfl, ho, (ih r).2 (.inr ⟨t₁, a, s₂, t₂, rfl, h₁, h₂⟩)⟩

/-- A program is not dropped while it returns. -/
theorem dropped_of_bind_ret {p : Prog S α} {f : α → β}
    (h : Dropped sem drop (p >>= fun a => .ret (f a)) s t s') : Dropped sem drop p s t s' := by
  rcases dropped_bind.1 h with h | ⟨t₁, a, s₁, t₂, -, -, hret⟩
  · exact h
  · exact hret.elim

end Dropped

end InterstellarDb.Atomic
