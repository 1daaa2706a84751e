import InterstellarDb.Foundations.Atomic.Trace

/-!
# A thread among the others

From the point of view of one thread, a run of a pool is a run of its program under the
interference of the other threads: when every step of the pool makes a move of `R`, a thread that
has started and ended between two pools has made a run under `R`, with operations that are moves
of `R` themselves (`Pool.Runs.exists_run`). Conversely a program that runs alone is a thread of a
pool in which nobody else moves (`Pool.runs_of_alone`).

A program is carried into a larger signature by naming its operations there (`Prog.via`); on the
part of the state that its operations see, its runs are the ones it had (`run_via`).
-/

namespace InterstellarDb.Atomic

variable {S T : Sig} {σ τ : Type} {α : Type}

/-! ## Moves before and after a run -/

section Moves

variable {R : σ → σ → Prop} {sem : Sem S σ} {p : Prog S α} {s s₁ s' : σ} {a : α}

/-- A move before a run is a move of the run. -/
theorem Run.prepend (trans : ∀ s s₁ s', R s s₁ → R s₁ s' → R s s') (h : R s s₁)
    (hrun : Run R sem p s₁ a s') : Run R sem p s a s' := by
  cases p with
  | ret _ => exact ⟨trans _ _ _ h hrun.1, hrun.2⟩
  | call o k =>
    obtain ⟨s₂, r, s₃, hR, ho, hrest⟩ := hrun
    exact ⟨s₂, r, s₃, trans _ _ _ h hR, ho, hrest⟩

/-- The operations that are moves of `R`. -/
def moving (sem : Sem S σ) (R : σ → σ → Prop) : Sem S σ := fun o s r s' => sem o s r s' ∧ R s s'

/-- A run of moving operations among moves is a move. -/
theorem Run.moves (trans : ∀ s s₁ s', R s s₁ → R s₁ s' → R s s')
    (hrun : Run R (moving sem R) p s a s') : R s s' := by
  induction p generalizing s with
  | ret _ => exact hrun.1
  | call o k ih =>
    obtain ⟨s₁, r, s₂, hR, ho, hrest⟩ := hrun
    exact trans _ _ _ hR (trans _ _ _ ho.2 (ih r hrest))

end Moves

/-! ## Threads of a pool -/

section Threads

variable {sem : Sem S σ} {Start : Prog S α → Prop} {C : σ → Thread S α → Prop}
  {R : σ → σ → Prop} {I : Pool S σ α → Prop} {c c' : Pool S σ α}

/-- Every step of the pool is a move of `R`, as long as `I` holds, which the steps keep. -/
structure Pool.Moves (sem : Sem S σ) (Start : Prog S α → Prop) (C : σ → Thread S α → Prop)
    (I : Pool S σ α → Prop) (R : σ → σ → Prop) : Prop where
  refl : ∀ s, R s s
  trans : ∀ s s₁ s', R s s₁ → R s₁ s' → R s s'
  step : ∀ c c', Pool.Step sem Start C c c' → I c → I c' ∧ R c.state c'.state

theorem Pool.Moves.runs (hM : Pool.Moves sem Start C I R) (h : Pool.Runs sem Start C c c')
    (hc : I c) : I c' ∧ R c.state c'.state := by
  induction h with
  | refl => exact ⟨hc, hM.refl _⟩
  | tail _ hstep ih =>
    obtain ⟨hI, hR⟩ := hM.step _ _ hstep ih.1
    exact ⟨hI, hM.trans _ _ _ ih.2 hR⟩

/-- What is left to run of the thread completes a run of a started program from `s`. -/
def Pool.Continues (sem : Sem S σ) (Start : Prog S α → Prop) (R : σ → σ → Prop) (s t : σ)
    (p : Prog S α) : Prop :=
  ∃ p₀, Start p₀ ∧ ∀ a s', Run R (moving sem R) p t a s' → Run R (moving sem R) p₀ s a s'

/-- The threads that are started in a run of the pool make runs of their programs. -/
theorem Pool.Runs.continues (hM : Pool.Moves sem Start C I R) (h : Pool.Runs sem Start C c c')
    (hc : I c) : ∃ new old : List (Thread S α), c'.threads = old ++ new ∧
      old.length = c.threads.length ∧
      ∀ t ∈ new, Pool.Continues sem Start R c.state c'.state t.prog := by
  induction h with
  | refl => exact ⟨[], c.threads, by simp, rfl, by simp⟩
  | @tail c₁ c₂ hruns hstep ih =>
    obtain ⟨new, old, hthreads, hlen, hnew⟩ := ih
    obtain ⟨hI, hR⟩ := hM.runs hruns hc
    have hmove := (hM.step _ _ hstep hI).2
    -- a thread that does not step sees the step as a move of the environment
    have hkeep : ∀ t ∈ new, Pool.Continues sem Start R c.state c₂.state t.prog := by
      intro t ht
      obtain ⟨p₀, hp₀, hrun⟩ := hnew t ht
      exact ⟨p₀, hp₀, fun a s' hs' => hrun a s' (hs'.prepend hM.trans hmove)⟩
    cases hstep with
    | run l₁ l₂ hC ho =>
      rename_i s s₂ past o k r
      dsimp only at hthreads hmove hkeep hnew ⊢
      rcases List.append_eq_append_iff.1 hthreads with ⟨m, hold, hm⟩ | ⟨m, hl₁, hm⟩
      · cases m with
        | nil =>
          -- the first of the new threads steps
          have hnew' : new = ⟨past, .call o k⟩ :: l₂ := by simpa using hm.symm
          subst hnew'
          refine ⟨⟨⟨o, r⟩ :: past, k r⟩ :: l₂, l₁, rfl, by rw [← hlen, hold]; simp, ?_⟩
          intro t ht
          rcases List.mem_cons.1 ht with rfl | ht
          · obtain ⟨p₀, hp₀, hrun⟩ := hnew _ (List.mem_cons_self ..)
            exact ⟨p₀, hp₀, fun a s' hs' => hrun a s' ⟨s, r, s₂, hM.refl _, ⟨ho, hmove⟩, hs'⟩⟩
          · exact hkeep t (List.mem_cons_of_mem _ ht)
        | cons x m =>
          -- an old thread steps
          obtain ⟨rfl, rfl⟩ := List.cons.inj hm
          refine ⟨new, l₁ ++ ⟨⟨o, r⟩ :: past, k r⟩ :: m, by simp, ?_, hkeep⟩
          rw [← hlen, hold]
          simp
      · -- a new thread steps
        subst hl₁ hm
        refine ⟨m ++ ⟨⟨o, r⟩ :: past, k r⟩ :: l₂, old, by simp, hlen, fun t ht => ?_⟩
        rcases List.mem_append.1 ht with ht | ht
        · exact hkeep t (List.mem_append_left _ ht)
        · rcases List.mem_cons.1 ht with rfl | ht
          · obtain ⟨p₀, hp₀, hrun⟩ := hnew ⟨past, .call o k⟩ (by simp)
            exact ⟨p₀, hp₀, fun a s' hs' => hrun a s' ⟨s, r, s₂, hM.refl _, ⟨ho, hmove⟩, hs'⟩⟩
          · exact hkeep t (List.mem_append_right _ (List.mem_cons_of_mem _ ht))
    | @start s ts p hp =>
      dsimp only at hthreads hR ⊢
      refine ⟨new ++ [Thread.new p], old, by rw [hthreads, List.append_assoc], hlen, ?_⟩
      intro t ht
      rcases List.mem_append.1 ht with ht | ht
      · exact hkeep t ht
      · obtain rfl := List.mem_singleton.1 ht
        exact ⟨p, hp, fun a s' hs' => hs'.prepend hM.trans hR⟩

/-- **A thread that has started and ended** in a run of the pool has run its program under the
moves of the pool. -/
theorem Pool.Runs.exists_run (hM : Pool.Moves sem Start C I R) (h : Pool.Runs sem Start C c c')
    (hc : I c) {t : Thread S α} (ht : t ∈ c'.threads.drop c.threads.length) {a : α}
    (hret : t.prog = .ret a) :
    ∃ p, Start p ∧ Run R (moving sem R) p c.state a c'.state := by
  obtain ⟨new, old, hthreads, hlen, hnew⟩ := h.continues hM hc
  rw [hthreads, ← hlen, List.drop_left] at ht
  obtain ⟨p, hp, hrun⟩ := hnew t ht
  refine ⟨p, hp, hrun a _ ?_⟩
  rw [hret]
  exact ⟨hM.refl _, rfl⟩

/-- A program that runs alone is a thread that nobody else moves with. -/
theorem Pool.runs_of_alone {D : S.Op → Prop} (hC : ∀ s past o k, D o → C s ⟨past, .call o k⟩)
    {s s' : σ} (ts : List (Thread S α)) {p : Prog S α} {a : α} (hp : Start p)
    (hf : Follows (.only D) (fun _ _ => True) () p) (h : Alone sem p s a s') :
    ∃ past, Pool.Runs sem Start C ⟨s, ts⟩ ⟨s', ts ++ [⟨past, .ret a⟩]⟩ := by
  have hrest : ∀ past : List (Σ o : S.Op, S.Resp o), ∃ past',
      Pool.Runs sem Start C ⟨s, ts ++ [⟨past, p⟩]⟩ ⟨s', ts ++ [⟨past', .ret a⟩]⟩ := by
    clear hp
    induction p generalizing s with
    | ret b =>
      obtain ⟨rfl, rfl⟩ := alone_ret.1 h
      exact fun past => ⟨past, .refl⟩
    | call o k ih =>
      obtain ⟨r, s₁, ho, h⟩ := alone_call.1 h
      intro past
      obtain ⟨past', hruns⟩ := ih r (hf.2 r) h (⟨o, r⟩ :: past)
      exact ⟨past', .head (.run ts [] (hC _ _ _ _ hf.1) ho) hruns⟩
  obtain ⟨past, hruns⟩ := hrest []
  exact ⟨past, .head (.start hp) hruns⟩

end Threads

/-! ## Programs in a larger signature -/

/-- The operations of `S`, as operations of `T` with the same answers. -/
structure Via (S T : Sig) where
  op : S.Op → T.Op
  resp : ∀ o, T.Resp (op o) → S.Resp o

/-- A program over `S`, as one over `T`. -/
def Prog.via (e : Via S T) : Prog S α → Prog T α
  | .ret a => .ret a
  | .call o k => .call (e.op o) fun r => (k (e.resp o r)).via e

/-- **A run in the larger signature** is a run on what the operations see of the state. -/
theorem run_via {e : Via S T} {semS : Sem S σ} {semT : Sem T τ} {R : σ → σ → Prop}
    {R' : τ → τ → Prop} (view : τ → σ) (trans : ∀ s s₁ s', R s s₁ → R s₁ s' → R s s')
    (hR : ∀ t t', R' t t' → R (view t) (view t'))
    (hop : ∀ o t r t', semT (e.op o) t r t' →
      ∃ s, semS o (view t) (e.resp o r) s ∧ R s (view t'))
    {p : Prog S α} {t t' : τ} {a : α} (h : Run R' semT (p.via e) t a t') :
    Run R semS p (view t) a (view t') := by
  induction p generalizing t with
  | ret _ => exact ⟨hR _ _ h.1, h.2⟩
  | call o k ih =>
    obtain ⟨t₁, r, t₂, hmove, ho, hrest⟩ := h
    obtain ⟨s, hs, hmove'⟩ := hop _ _ _ _ ho
    exact ⟨view t₁, e.resp o r, s, hR _ _ hmove, hs, (ih _ hrest).prepend trans hmove'⟩

/-- A run alone on what the operations see is one in the larger signature. -/
theorem exists_alone_via {e : Via S T} {semS : Sem S σ} (semT : Sem T τ) (view : τ → σ)
    (hop : ∀ o t r s, semS o (view t) r s →
      ∃ r' t', semT (e.op o) t r' t' ∧ e.resp o r' = r ∧ view t' = s)
    {p : Prog S α} {t : τ} {s : σ} {a : α} (h : Alone semS p (view t) a s) :
    ∃ t', Alone semT (p.via e) t a t' ∧ view t' = s := by
  induction p generalizing t with
  | ret b =>
    obtain ⟨rfl, rfl⟩ := alone_ret.1 h
    exact ⟨t, alone_ret.2 ⟨rfl, rfl⟩, rfl⟩
  | call o k ih =>
    obtain ⟨r, s₁, ho, h⟩ := alone_call.1 h
    obtain ⟨r', t₁, ho', rfl, rfl⟩ := hop _ _ _ _ ho
    obtain ⟨t', hrest, hview⟩ := ih _ h
    exact ⟨t', alone_call.2 ⟨r', t₁, ho', hrest⟩, hview⟩

/-- A program follows in the larger signature the protocol that it follows in its own. -/
theorem Follows.via {P : Protocol S} (P' : Protocol T) (e : Via S T) (view : P'.Ghost → P.Ghost)
    (hallow : ∀ g o, P.allow (view g) o → P'.allow g (e.op o))
    (hnext : ∀ g o r, view (P'.next g (e.op o) r) = P.next (view g) o (e.resp o r))
    {Q : α → P.Ghost → Prop} {g : P'.Ghost} {p : Prog S α} (h : Follows P Q (view g) p) :
    Follows P' (fun a g => Q a (view g)) g (p.via e) := by
  induction p generalizing g with
  | ret _ => exact h
  | call o k ih =>
    refine ⟨hallow _ _ h.1, fun r => ih _ ?_⟩
    rw [hnext]
    exact h.2 _

/-- A program performs operations of the larger signature that come from its own. -/
theorem follows_only_via {e : Via S T} {D : T.Op → Prop} (hD : ∀ o, D (e.op o)) (p : Prog S α) :
    Follows (.only D) (fun _ _ => True) () (p.via e) := by
  induction p with
  | ret _ => trivial
  | call o k ih => exact ⟨hD o, fun r => ih _⟩

end InterstellarDb.Atomic
