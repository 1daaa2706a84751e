import InterstellarDb.Foundations.Atomic.Trace

/-!
# The log of a run of a pool

A run of a pool is a sequence of operations, each of one thread. Its log says who performed what,
in which state (`Pool.Runs.exists_log`): the entries of one thread are what this thread did
meanwhile (`doneBy`), so the log is an interleaving of the threads.

What a thread did it was allowed to do by the protocol that it keeps to (`Keeps`, `Legal`). When
only some operations matter to a part of the state, that part is what these operations make of it,
in the order of the log (`foldl_filterMap_of_steps`).
-/

namespace InterstellarDb.Atomic

variable {S : Sig} {σ : Type} {α : Type}

/-! ## Logs -/

/-- What an event adds to the past of its thread. -/
def Event.done (x : Event S σ) : Σ o : S.Op, S.Resp o := ⟨x.op, x.answer⟩

/-- What the thread at a position has done, newest first. -/
def Pool.past (c : Pool S σ α) (i : ℕ) : List (Σ o : S.Op, S.Resp o) :=
  match c.threads[i]? with
  | none => []
  | some t => t.past

/-- What the log says of one thread, newest first. -/
def doneBy (log : List (ℕ × Event S σ)) (i : ℕ) : List (Σ o : S.Op, S.Resp o) :=
  ((log.filter fun x => x.1 = i).map fun x => x.2.done).reverse

@[simp] theorem doneBy_nil (i : ℕ) : doneBy ([] : List (ℕ × Event S σ)) i = [] := rfl

theorem doneBy_concat (log : List (ℕ × Event S σ)) (x : ℕ × Event S σ) (i : ℕ) :
    doneBy (log ++ [x]) i = if x.1 = i then x.2.done :: doneBy log i else doneBy log i := by
  by_cases h : x.1 = i
  · simp [doneBy, h]
  · simp [doneBy, h]

theorem doneBy_cons (x : ℕ × Event S σ) (log : List (ℕ × Event S σ)) (i : ℕ) :
    doneBy (x :: log) i = if x.1 = i then doneBy log i ++ [x.2.done] else doneBy log i := by
  by_cases h : x.1 = i
  · simp [doneBy, h]
  · simp [doneBy, h]

theorem mem_doneBy {log : List (ℕ × Event S σ)} {i : ℕ} {y : Σ o : S.Op, S.Resp o} :
    y ∈ doneBy log i ↔ ∃ x, (i, x) ∈ log ∧ x.done = y := by
  simp [doneBy, and_assoc]

/-- An entry of the log is in what its thread did. -/
theorem done_mem_doneBy {log : List (ℕ × Event S σ)} {i : ℕ} {x : Event S σ} (h : (i, x) ∈ log) :
    x.done ∈ doneBy log i :=
  mem_doneBy.2 ⟨x, h, rfl⟩

theorem Steps.concat {sem : Sem S σ} {s s₁ s' : σ} {t : List (Event S σ)} (h : Steps sem s t s₁)
    {x : Event S σ} (hx : sem x.op s₁ x.answer s') : Steps sem s (t ++ [x]) s' := by
  induction t generalizing s with
  | nil =>
    obtain rfl := h
    exact ⟨s', hx, rfl⟩
  | cons y t ih =>
    obtain ⟨s₂, hy, hrest⟩ := h
    exact ⟨s₂, hy, ih hrest⟩

section Runs

variable {sem : Sem S σ} {Start : Prog S α → Prop} {C : σ → Thread S α → Prop}
  {c c' : Pool S σ α}

/-- The threads after one of them has stepped. -/
theorem getElem?_stepped {l₁ l₂ : List (Thread S α)} (t t' : Thread S α) (i : ℕ) :
    (l₁ ++ t' :: l₂)[i]? = if l₁.length = i then some t' else (l₁ ++ t :: l₂)[i]? := by
  have hset : l₁ ++ t' :: l₂ = (l₁ ++ t :: l₂).set l₁.length t' := by simp
  rw [hset, List.getElem?_set]
  split_ifs with h h'
  · rfl
  · simp at h'
  · rfl

/-- **A run of a pool is an interleaving** of what its threads did meanwhile. -/
theorem Pool.Runs.exists_log (h : Pool.Runs sem Start C c c') :
    ∃ log : List (ℕ × Event S σ), Steps sem c.state (log.map Prod.snd) c'.state ∧
      ∀ i, c'.past i = doneBy log i ++ c.past i := by
  induction h with
  | refl => exact ⟨[], rfl, fun i => rfl⟩
  | @tail c₁ c₂ _ hstep ih =>
    obtain ⟨log, hsteps, hpast⟩ := ih
    cases hstep with
    | @run s s' past o k r l₁ l₂ hC ho =>
      refine ⟨log ++ [(l₁.length, ⟨o, s, r⟩)], ?_, fun i => ?_⟩
      · rw [List.map_append, List.map_singleton]
        exact hsteps.concat ho
      · have hi := hpast i
        unfold Pool.past at hi ⊢
        dsimp only at hi ⊢
        rw [getElem?_stepped ⟨past, .call o k⟩, doneBy_concat]
        split_ifs with h
        · subst h
          rw [List.getElem?_append_right (Nat.le_refl _), Nat.sub_self, List.getElem?_cons_zero] at hi
          dsimp only at hi ⊢
          rw [hi]
          rfl
        · exact hi
    | @start s ts p hp =>
      refine ⟨log, hsteps, fun i => ?_⟩
      rw [← hpast]
      unfold Pool.past
      dsimp only
      rcases Nat.lt_trichotomy i ts.length with hlt | rfl | hlt
      · rw [List.getElem?_append_left hlt]
      · simp [Thread.new]
      · have hlen : (ts ++ [Thread.new p]).length ≤ i := by
          rw [List.length_append, List.length_singleton]
          exact hlt
        rw [List.getElem?_eq_none hlen, List.getElem?_eq_none (Nat.le_of_lt hlt)]

end Runs

/-! ## Threads that keep to a protocol -/

variable {P : Protocol S} {Q : α → P.Ghost → Prop} {g : P.Ghost}

/-- Every operation of the past was allowed when it was performed. -/
def Legal (P : Protocol S) (g : P.Ghost) : List (Σ o : S.Op, S.Resp o) → Prop
  | [] => True
  | x :: past => Legal P g past ∧ P.allow (P.replay g past) x.1

/-- The thread has kept to the protocol since it started at `g`, and goes on doing so. -/
structure Keeps (Q : α → P.Ghost → Prop) (g : P.Ghost) (t : Thread S α) : Prop where
  legal : Legal P g t.past
  follows : Follows P Q (P.replay g t.past) t.prog

theorem keeps_new {p : Prog S α} (h : Follows P Q g p) : Keeps Q g (Thread.new p) := ⟨trivial, h⟩

/-- A thread that keeps to the protocol does so after its next operation. -/
theorem Keeps.next {past : List (Σ o : S.Op, S.Resp o)} {o : S.Op} {k : S.Resp o → Prog S α}
    (h : Keeps Q g ⟨past, .call o k⟩) (r : S.Resp o) : Keeps Q g ⟨⟨o, r⟩ :: past, k r⟩ :=
  ⟨⟨h.legal, h.follows.1⟩, h.follows.2 r⟩

/-- A part of a legal past, from its start on, is legal. -/
theorem Legal.of_append {p q : List (Σ o : S.Op, S.Resp o)} (h : Legal P g (p ++ q)) :
    Legal P g q := by
  induction p with
  | nil => exact h
  | cons x p ih => exact ih h.1

/-- An operation of a legal past was allowed. -/
theorem Legal.allowed {past : List (Σ o : S.Op, S.Resp o)} (h : Legal P g past)
    {x : Σ o : S.Op, S.Resp o} (hx : x ∈ past) :
    ∃ newer older, past = newer ++ x :: older ∧ P.allow (P.replay g older) x.1 := by
  obtain ⟨newer, older, rfl⟩ := List.append_of_mem hx
  exact ⟨newer, older, rfl, h.of_append.2⟩

/-- **The threads of a pool keep to their protocol**, in every interleaving. -/
theorem Pool.Runs.keeps {sem : Sem S σ} {C : σ → Thread S α → Prop} {c c' : Pool S σ α}
    {Q : ℕ → α → P.Ghost → Prop} {g : ℕ → P.Ghost} (h : Pool.Runs sem (fun _ => False) C c c')
    (hc : ∀ i t, c.threads[i]? = some t → Keeps (Q i) (g i) t) :
    ∀ i t, c'.threads[i]? = some t → Keeps (Q i) (g i) t := by
  induction h with
  | refl => exact hc
  | tail _ hstep ih =>
    cases hstep with
    | @run s s' past o k r l₁ l₂ hC ho =>
      intro i t ht
      dsimp only at ih ht
      rw [getElem?_stepped ⟨past, .call o k⟩] at ht
      split_ifs at ht with hi
      · obtain rfl := Option.some.inj ht
        refine (ih i ⟨past, .call o k⟩ ?_).next r
        rw [← hi, List.getElem?_append_right (Nat.le_refl _), Nat.sub_self, List.getElem?_cons_zero]
      · exact ih i t ht
    | start hp => exact hp.elim

/-! ## The part of a state that some operations change -/

/-- A part of the state that only the events picked by `pick` change is what these make of it, one
after another. -/
theorem foldl_filterMap_of_steps {sem : Sem S σ} {ι κ τ : Type} (view : σ → τ)
    (pick : ι × Event S σ → Option κ) (effect : τ → κ → τ) {log : List (ι × Event S σ)} {s s' : σ}
    (h : Steps sem s (log.map Prod.snd) s')
    (hview : ∀ x ∈ log, ∀ s s', sem x.2.op s x.2.answer s' →
      view s' = match pick x with
        | none => view s
        | some k => effect (view s) k) :
    view s' = (log.filterMap pick).foldl effect (view s) := by
  induction log generalizing s with
  | nil =>
    obtain rfl := h
    rfl
  | cons x log ih =>
    obtain ⟨s₁, hx, hrest⟩ := h
    have hone := hview x (List.mem_cons_self ..) s s₁ hx
    rw [ih hrest fun y hy => hview y (List.mem_cons_of_mem _ hy)]
    cases hpick : pick x with
    | none =>
      rw [hpick] at hone
      rw [List.filterMap_cons_none hpick, hone]
    | some k =>
      rw [hpick] at hone
      rw [List.filterMap_cons_some hpick, List.foldl_cons, hone]

end InterstellarDb.Atomic
