import Mathlib.Data.List.Basic
import InterstellarDb.Foundations.Atomic.Prog

/-!
# Interleavings, and protocols of operations

A pool is a shared state and the threads that run on it; one step of a pool is one operation of
one thread, so the runs of a pool are all the interleavings of its threads.

A *protocol* says which operations a thread may perform, depending on a ghost value that its
operations and their answers move forward. `Follows P Q g p` says that the program `p`, started
at the ghost value `g`, keeps to the protocol `P` whatever the answers are, and ends with `Q`.
It is checked once per program, part by part (`Follows.bind`). An invariant of a pool relates
the shared state to the ghost values of the threads; `Tracked.step` reduces it to the
operations that the protocol allows.
-/

namespace InterstellarDb.Atomic

variable {S : Sig} {σ : Type} {α β : Type}

/-! ## Pools -/

/-- A thread: what it has done, newest first, and what it has still to do. -/
structure Thread (S : Sig) (α : Type) where
  past : List (Σ o : S.Op, S.Resp o)
  prog : Prog S α

/-- The thread that starts to run `p`. -/
def Thread.new (p : Prog S α) : Thread S α := ⟨[], p⟩

/-- A shared state and the threads running on it. -/
structure Pool (S : Sig) (σ α : Type) where
  state : σ
  threads : List (Thread S α)

/-- A step of a pool: a thread that meets the condition `C` performs its next operation, or a
new thread starts to run a program of `Start`. -/
inductive Pool.Step (sem : Sem S σ) (Start : Prog S α → Prop) (C : σ → Thread S α → Prop) :
    Pool S σ α → Pool S σ α → Prop
  | run {s s' : σ} {past : List (Σ o : S.Op, S.Resp o)} {o : S.Op} {k : S.Resp o → Prog S α}
      {r : S.Resp o} (l₁ l₂ : List (Thread S α)) (hC : C s ⟨past, .call o k⟩)
      (ho : sem o s r s') :
      Step sem Start C ⟨s, l₁ ++ ⟨past, .call o k⟩ :: l₂⟩ ⟨s', l₁ ++ ⟨⟨o, r⟩ :: past, k r⟩ :: l₂⟩
  | start {s : σ} {ts : List (Thread S α)} {p : Prog S α} (hp : Start p) :
      Step sem Start C ⟨s, ts⟩ ⟨s, ts ++ [Thread.new p]⟩

/-- A run of a pool. -/
abbrev Pool.Runs (sem : Sem S σ) (Start : Prog S α → Prop) (C : σ → Thread S α → Prop) :
    Pool S σ α → Pool S σ α → Prop :=
  Relation.ReflTransGen (Pool.Step sem Start C)

/-! ## Protocols -/

/-- A protocol: the operations a thread may perform at a ghost value, and the ghost value after
the answer. -/
structure Protocol (S : Sig) where
  Ghost : Type
  allow : Ghost → S.Op → Prop
  next : Ghost → (o : S.Op) → S.Resp o → Ghost

variable {P : Protocol S}

/-- Started at `g`, the program keeps to the protocol and ends with `Q`, whatever the answers. -/
def Follows (P : Protocol S) (Q : α → P.Ghost → Prop) : P.Ghost → Prog S α → Prop
  | g, .ret a => Q a g
  | g, .call o k => P.allow g o ∧ ∀ r, Follows P Q (P.next g o r) (k r)

@[simp] theorem follows_op {o : S.Op} {Q : S.Resp o → P.Ghost → Prop} {g : P.Ghost} :
    Follows P Q g (op o) ↔ P.allow g o ∧ ∀ r, Q r (P.next g o r) := Iff.rfl

theorem Follows.mono {Q Q' : α → P.Ghost → Prop} {g : P.Ghost} {p : Prog S α}
    (h : Follows P Q g p) (hQ : ∀ a g, Q a g → Q' a g) : Follows P Q' g p := by
  induction p generalizing g with
  | ret a => exact hQ a g h
  | call o k ih => exact ⟨h.1, fun r => ih r (h.2 r)⟩

/-- A sequence follows a protocol when its parts do. -/
theorem Follows.bind {Q : α → P.Ghost → Prop} {Q' : β → P.Ghost → Prop} {g : P.Ghost}
    {p : Prog S α} {f : α → Prog S β} (h : Follows P Q g p)
    (hf : ∀ a g, Q a g → Follows P Q' g (f a)) : Follows P Q' g (p >>= f) := by
  induction p generalizing g with
  | ret a => exact hf a g h
  | call o k ih => exact ⟨h.1, fun r => ih r (h.2 r)⟩

theorem Follows.map {C : P.Ghost → Prop} {g : P.Ghost} {p : Prog S α} (f : α → β)
    (h : Follows P (fun _ => C) g p) : Follows P (fun _ => C) g (p >>= fun a => pure (f a)) :=
  h.bind fun _ _ hg => hg

/-- The operation is allowed at `g` and leaves the ghost value as it is. -/
def Protocol.Neutral (P : Protocol S) (g : P.Ghost) (o : S.Op) : Prop :=
  P.allow g o ∧ ∀ r, P.next g o r = g

theorem Protocol.Neutral.call {Q : α → P.Ghost → Prop} {g : P.Ghost} {o : S.Op}
    {k : S.Resp o → Prog S α} (h : P.Neutral g o) (hk : ∀ r, Follows P Q g (k r)) :
    Follows P Q g (.call o k) := by
  refine ⟨h.1, fun r => ?_⟩
  rw [h.2 r]
  exact hk r

/-- The ghost value after a past, from the one at the start. -/
def Protocol.replay (P : Protocol S) (g : P.Ghost) : List (Σ o : S.Op, S.Resp o) → P.Ghost
  | [] => g
  | ⟨o, r⟩ :: past => P.next (P.replay g past) o r

/-- Keeping to two protocols at once. -/
def Protocol.both (P P' : Protocol S) : Protocol S where
  Ghost := P.Ghost × P'.Ghost
  allow := fun g o => P.allow g.1 o ∧ P'.allow g.2 o
  next := fun g o r => (P.next g.1 o r, P'.next g.2 o r)

theorem Follows.both {P' : Protocol S} {Q : α → P.Ghost → Prop} {Q' : α → P'.Ghost → Prop}
    {g : P.Ghost} {g' : P'.Ghost} {p : Prog S α} (h : Follows P Q g p) (h' : Follows P' Q' g' p) :
    Follows (P.both P') (fun a x => Q a x.1 ∧ Q' a x.2) (g, g') p := by
  induction p generalizing g g' with
  | ret a => exact ⟨h, h'⟩
  | call o k ih => exact ⟨⟨h.1, h'.1⟩, fun r => ih r (h.2 r) (h'.2 r)⟩

theorem replay_both (P P' : Protocol S) (g : P.Ghost) (g' : P'.Ghost)
    (past : List (Σ o : S.Op, S.Resp o)) :
    (P.both P').replay (g, g') past = (P.replay g past, P'.replay g' past) := by
  induction past with
  | nil => rfl
  | cons x past ih =>
    show (P.both P').next ((P.both P').replay (g, g') past) x.1 x.2 = _
    rw [ih]
    rfl

/-! ## Invariants of pools -/

section Tracked

variable {Q : α → P.Ghost → Prop} {G₀ : P.Ghost → Prop} {J : σ → List P.Ghost → Prop}

/-- The thread reached the ghost value `g` from a starting one, and goes on keeping to the
protocol. -/
structure Tracks (Q : α → P.Ghost → Prop) (G₀ : P.Ghost → Prop) (g : P.Ghost)
    (t : Thread S α) : Prop where
  past : ∃ g₀, G₀ g₀ ∧ g = P.replay g₀ t.past
  follows : Follows P Q g t.prog

/-- The invariant `J` holds of the shared state and of ghost values that track the threads. -/
def Tracked (Q : α → P.Ghost → Prop) (G₀ : P.Ghost → Prop) (J : σ → List P.Ghost → Prop)
    (c : Pool S σ α) : Prop :=
  ∃ l : List (P.Ghost × Thread S α), l.map Prod.snd = c.threads ∧
    (∀ x ∈ l, Tracks Q G₀ x.1 x.2) ∧ J c.state (l.map Prod.fst)

theorem tracked_nil {s : σ} (h : J s []) : Tracked Q G₀ J (⟨s, []⟩ : Pool S σ α) :=
  ⟨[], rfl, by simp, h⟩

/-- Threads that start at ghost values of `G₀` are tracked. -/
theorem tracked_new {s : σ} (l : List (P.Ghost × Prog S α))
    (hl : ∀ x ∈ l, G₀ x.1 ∧ Follows P Q x.1 x.2) (h : J s (l.map Prod.fst)) :
    Tracked Q G₀ J ⟨s, l.map fun x => Thread.new x.2⟩ := by
  refine ⟨l.map fun x => (x.1, Thread.new x.2), by simp, ?_, by simpa [Function.comp_def]⟩
  intro x hx
  obtain ⟨y, hy, rfl⟩ := List.mem_map.1 hx
  exact ⟨⟨y.1, (hl y hy).1, rfl⟩, (hl y hy).2⟩

/-- **The invariant rule**: a tracked invariant is kept by every step of the pool, when the
operations that the protocol allows keep it and new threads can join. -/
theorem Tracked.step {sem : Sem S σ} {Start : Prog S α → Prop} {C : σ → Thread S α → Prop}
    (hop : ∀ {s l₁ g l₂ past o k r s'}, J s (l₁ ++ g :: l₂) →
      (∃ g₀, G₀ g₀ ∧ g = P.replay g₀ past) → C s ⟨past, .call o k⟩ → P.allow g o →
      sem o s r s' → J s' (l₁ ++ P.next g o r :: l₂))
    (hstart : ∀ p, Start p → ∃ g₀, G₀ g₀ ∧ Follows P Q g₀ p ∧
      ∀ s gs, J s gs → J s (gs ++ [g₀]))
    {c c' : Pool S σ α} (h : Pool.Step sem Start C c c') (hc : Tracked Q G₀ J c) :
    Tracked Q G₀ J c' := by
  obtain ⟨l, hl, ht, hJ⟩ := hc
  cases h with
  | run l₁ l₂ hC ho =>
    rename_i s s' past o k r
    obtain ⟨m₁, x, rfl, rfl, hx⟩ := List.map_eq_append_iff.1 hl
    obtain ⟨⟨g, t⟩, m₂, rfl, rfl, rfl⟩ := List.map_eq_cons_iff.1 hx
    obtain ⟨⟨g₀, h₀, hg⟩, hf⟩ := ht (g, ⟨past, .call o k⟩) (by simp)
    change g = P.replay g₀ past at hg
    refine ⟨m₁ ++ (P.next g o r, ⟨⟨o, r⟩ :: past, k r⟩) :: m₂, by simp, ?_, ?_⟩
    · intro y hy
      simp only [List.mem_append, List.mem_cons] at hy
      rcases hy with hy | rfl | hy
      · exact ht y (by simp [hy])
      · exact ⟨⟨g₀, h₀, by simp only [hg, Protocol.replay]⟩, hf.2 r⟩
      · exact ht y (by simp [hy])
    · simp only [List.map_append, List.map_cons] at hJ ⊢
      exact hop hJ ⟨g₀, h₀, hg⟩ hC hf.1 ho
  | start hp =>
    rename_i s ts p
    obtain ⟨g₀, h₀, hf, hJ'⟩ := hstart p hp
    refine ⟨l ++ [(g₀, Thread.new p)], by simp [hl], ?_, by simpa using hJ' _ _ hJ⟩
    intro y hy
    rcases List.mem_append.1 hy with hy | hy
    · exact ht y hy
    · rw [List.mem_singleton.1 hy]
      exact ⟨⟨g₀, h₀, rfl⟩, hf⟩

end Tracked

/-! ## Deterministic schedules -/

/-- Let the threads named by the schedule, by position, perform one operation each in turn, as
long as `guard` lets them. -/
def Pool.schedule (f : (o : S.Op) → σ → Option (S.Resp o × σ)) (guard : σ → Thread S α → Bool) :
    List ℕ → Pool S σ α → Option (Pool S σ α)
  | [], c => some c
  | i :: is, c =>
    match c.threads[i]? with
    | some ⟨past, .call o k⟩ =>
      if guard c.state ⟨past, .call o k⟩ then
        match f o c.state with
        | some (r, s') => Pool.schedule f guard is ⟨s', c.threads.set i ⟨⟨o, r⟩ :: past, k r⟩⟩
        | none => none
      else none
    | _ => none

theorem Pool.runs_of_schedule {sem : Sem S σ} {Start : Prog S α → Prop}
    {f : (o : S.Op) → σ → Option (S.Resp o × σ)} {guard : σ → Thread S α → Bool}
    {C : σ → Thread S α → Prop} (hf : ∀ o s r s', f o s = some (r, s') → sem o s r s')
    (hC : ∀ s t, guard s t = true → C s t) {is : List ℕ} {c c' : Pool S σ α}
    (h : Pool.schedule f guard is c = some c') : Pool.Runs sem Start C c c' := by
  induction is generalizing c with
  | nil =>
    cases h
    exact .refl
  | cons i is ih =>
    obtain ⟨s, ts⟩ := c
    rw [Pool.schedule] at h
    split at h
    · rename_i past o k hi
      split_ifs at h with hg
      split at h
      · rename_i r s' ho
        refine .head ?_ (ih h)
        obtain ⟨hlt, hget⟩ := List.getElem?_eq_some_iff.1 hi
        have hsplit : ts = ts.take i ++ ⟨past, .call o k⟩ :: ts.drop (i + 1) := by
          rw [← hget, List.getElem_cons_drop, List.take_append_drop]
        have hset : ts.set i ⟨⟨o, r⟩ :: past, k r⟩ =
            ts.take i ++ ⟨⟨o, r⟩ :: past, k r⟩ :: ts.drop (i + 1) := by
          rw [List.set_eq_take_append_cons_drop, if_pos hlt]
        simp only at ho ⊢
        rw [hset]
        nth_rewrite 1 [hsplit]
        exact .run _ _ (hC _ _ hg) (hf _ _ _ _ ho)
      · cases h
    · cases h

end InterstellarDb.Atomic
