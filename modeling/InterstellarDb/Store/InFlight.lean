import InterstellarDb.Foundations.Checked
import InterstellarDb.Store.Settled

/-!
# The in-flight table

A writer holds a mark on an epoch from the operation that marked the epoch to the one that gave the
mark back. What a thread holds is read off the operations that it performed (`markLog`).

* The protocol of the marks (`markProtocol`) lets a thread mark an epoch once and give back only
  what it holds. Every method keeps to it and ends with nothing held (`settled_prog`), whichever of
  its transactions fail.
* So in every reachable state the table counts, for each epoch, the threads that hold a mark on it,
  and has no entry where nobody does (`inflight_counts_writers`).
-/

namespace InterstellarDb

open Atomic

variable {L : LeafDepth}

/-! ## What a thread marked and gave back -/

namespace StoreOp

/-- The epochs that an operation marks, by its answer. -/
def marked : (o : StoreOp) → o.Resp → List Epoch
  | .markUnlessSealed e, true => [e]
  | .removeSealedAndMark e, _ => [e]
  | _, _ => []

/-- The epochs that an operation takes a mark away from. -/
def released : StoreOp → List Epoch
  | .endMarks es => es
  | _ => []

theorem nodup_marked (o : StoreOp) (r : o.Resp) : (o.marked r).Nodup := by
  unfold marked
  split
  · exact List.nodup_singleton _
  · exact List.nodup_singleton _
  · exact List.nodup_nil

end StoreOp

/-- The epochs that a thread marked, and those whose mark it gave back, newest first. -/
structure MarkLog where
  begun : List Epoch
  ended : List Epoch

namespace MarkLog

/-- The log of a thread that starts. -/
def start : MarkLog := ⟨[], []⟩

/-- The thread is between its begin mark and its end mark for the epoch. -/
def Holds (g : MarkLog) (e : Epoch) : Prop := e ∈ g.begun ∧ e ∉ g.ended

instance (g : MarkLog) (e : Epoch) : Decidable (g.Holds e) := inferInstanceAs (Decidable (_ ∧ _))

/-- Every mark was given back. -/
def Settled (g : MarkLog) : Prop := ∀ e ∈ g.begun, e ∈ g.ended

/-- No epoch was marked twice or given back twice, and only marked ones were given back. -/
structure Sound (g : MarkLog) : Prop where
  begun : g.begun.Nodup
  ended : g.ended.Nodup
  subset : ∀ e ∈ g.ended, e ∈ g.begun

/-- An operation may mark what was not marked before, and give back what is held. -/
def allow (g : MarkLog) (o : StoreOp) : Prop :=
  (∀ r, ∀ e ∈ o.marked r, e ∉ g.begun) ∧ o.released.Nodup ∧ ∀ e ∈ o.released, g.Holds e

/-- The log after an answer. -/
def next (g : MarkLog) (o : StoreOp) (r : o.Resp) : MarkLog :=
  ⟨o.marked r ++ g.begun, o.released ++ g.ended⟩

theorem Settled.not_holds {g : MarkLog} (h : g.Settled) (e : Epoch) : ¬ g.Holds e :=
  fun he => he.2 (h e he.1)

theorem sound_start : start.Sound := ⟨List.nodup_nil, List.nodup_nil, by simp [start]⟩

variable {g : MarkLog} {o : StoreOp}

/-- An allowed operation keeps the log sound. -/
theorem Sound.next (h : g.Sound) (ha : g.allow o) (r : o.Resp) : (g.next o r).Sound := by
  obtain ⟨hnew, hnodup, hheld⟩ := ha
  refine ⟨?_, ?_, fun e he => ?_⟩
  · refine List.nodup_append'.2 ⟨o.nodup_marked r, h.begun, fun e he hb => ?_⟩
    exact hnew r e he hb
  · exact List.nodup_append'.2 ⟨hnodup, h.ended, fun e he => (hheld e he).2⟩
  · rcases List.mem_append.1 he with he | he
    · exact List.mem_append_right _ (hheld e he).1
    · exact List.mem_append_right _ (h.subset e he)

/-- **What an allowed operation does to the marks held**: it adds the epochs that it marks, and
takes away those that it gives back. -/
theorem toNat_holds_next (h : g.Sound) (ha : g.allow o) (r : o.Resp) (e : Epoch) :
    (decide ((g.next o r).Holds e)).toNat + o.released.count e =
      (decide (g.Holds e)).toNat + (o.marked r).count e := by
  obtain ⟨hnew, hnodup, hheld⟩ := ha
  have hnext : (g.next o r).Holds e ↔
      (e ∈ o.marked r ∨ e ∈ g.begun) ∧ e ∉ o.released ∧ e ∉ g.ended := by
    simp only [Holds, MarkLog.next, List.mem_append, not_or]
  by_cases hm : e ∈ o.marked r
  · -- newly marked: neither held nor given back before
    have hb := hnew r e hm
    have he := mt (h.subset e) hb
    have hx := mt (fun hx => (hheld e hx).1) hb
    rw [List.count_eq_one_of_mem (o.nodup_marked r) hm, List.count_eq_zero_of_not_mem hx,
      decide_eq_true (hnext.2 ⟨.inl hm, hx, he⟩), decide_eq_false fun hg : g.Holds e => hb hg.1]
    rfl
  · by_cases hx : e ∈ o.released
    · rw [List.count_eq_one_of_mem hnodup hx, List.count_eq_zero_of_not_mem hm,
        decide_eq_true (hheld e hx), decide_eq_false fun hg => (hnext.1 hg).2.1 hx]
      rfl
    · have hsame : (g.next o r).Holds e ↔ g.Holds e := by
        rw [hnext, Holds]
        simp only [hm, hx, false_or, not_false_eq_true, true_and]
      rw [List.count_eq_zero_of_not_mem hm, List.count_eq_zero_of_not_mem hx,
        decide_eq_decide.2 hsame]

end MarkLog

/-- The protocol of the marks. -/
def markProtocol : Protocol storeSig := ⟨MarkLog, MarkLog.allow, MarkLog.next⟩

/-- The marks of a thread, by the operations that it performed. -/
def markLog (past : List (Σ o : StoreOp, o.Resp)) : MarkLog :=
  ⟨past.flatMap fun x => x.1.marked x.2, past.flatMap fun x => x.1.released⟩

theorem replay_markProtocol (past : List (Σ o : StoreOp, o.Resp)) :
    markProtocol.replay MarkLog.start past = markLog past := by
  induction past with
  | nil => rfl
  | cons x past ih =>
    show markProtocol.next (markProtocol.replay MarkLog.start past) x.1 x.2 = _
    rw [ih]
    rfl

/-! ## The methods keep to the protocol -/

section Follows

variable {g : MarkLog}

/-- An operation that concerns no marks. -/
theorem neutral_of_no_marks {o : StoreOp} (hm : ∀ r, o.marked r = []) (hr : o.released = []) :
    markProtocol.Neutral g o := by
  refine ⟨⟨fun r e he => ?_, ?_, fun e he => ?_⟩, fun r => ?_⟩
  · rw [hm r] at he
    cases he
  · rw [hr]
    exact List.nodup_nil
  · rw [hr] at he
    cases he
  · show MarkLog.next g o r = g
    rw [MarkLog.next, hm r, hr]
    rfl

theorem follows_commitWrites_neutral (ws : List KvWrite) :
    Follows markProtocol (fun _ g' => g' = g) g (commitWrites ws) := by
  have hcommit : ∀ n, markProtocol.Neutral g (.kvCommit n ws) :=
    fun _ => neutral_of_no_marks (fun _ => rfl) rfl
  exact follows_commitWrites (neutral_of_no_marks (fun _ => rfl) rfl)
    (fun _ => neutral_of_no_marks (fun _ => rfl) rfl) (fun _ => rfl)
    fun n => ⟨(hcommit n).1, (hcommit n).2⟩

/-- One epoch is begun: it is marked, by the one way or the other, or the log is as before. -/
theorem follows_beginWriteEpoch_once {e : Epoch} (he : e ∉ g.begun) :
    Follows markProtocol
      (fun r g' => match r with
        | .ok _ => g' = ⟨e :: g.begun, g.ended⟩
        | .error _ => g' = g) g (beginWriteEpoch e) := by
  have hmark : ∀ o : StoreOp, (∀ r, o.marked r = [] ∨ o.marked r = [e]) → o.released = [] →
      g.allow o := by
    refine fun o hm hr => ⟨fun r x hx => ?_, by simp [hr], by simp [hr]⟩
    rcases hm r with h | h
    · rw [h] at hx
      cases hx
    · rw [h, List.mem_singleton] at hx
      rwa [hx]
  refine ⟨hmark _ (fun r => ?_) rfl, fun marked => ?_⟩
  · cases r with
    | true => exact .inr rfl
    | false => exact .inl rfl
  cases marked with
  | true => rfl
  | false =>
    refine (neutral_of_no_marks (fun _ => rfl) rfl : markProtocol.Neutral g .lockSealIo).call
      fun _ => ?_
    refine (follows_commitWrites_neutral _).bind fun r g' hg => ?_
    obtain rfl : g' = g := hg
    cases r with
    | error err => exact (neutral_of_no_marks (fun _ => rfl) rfl).call fun _ => rfl
    | ok _ => exact ⟨hmark _ (fun _ => .inr rfl) rfl, fun _ =>
        (neutral_of_no_marks (fun _ => rfl) rfl).call fun _ => rfl⟩

/-- The epochs are begun one after another; on a failure, those begun so far are given back. -/
theorem follows_beginWriteEpochsFrom_once {marked es : List Epoch} (h : (marked ++ es).Nodup) :
    Follows markProtocol
      (fun r g' => match r with
        | .ok _ => g' = ⟨(marked ++ es).reverse, []⟩
        | .error _ => g'.Settled) ⟨marked.reverse, []⟩ (beginWriteEpochsFrom marked es) := by
  induction es generalizing marked with
  | nil =>
    rw [List.append_nil]
    rfl
  | cons e es ih =>
    have hsplit : marked ++ e :: es = (marked ++ [e]) ++ es := by simp
    have hnot : e ∉ marked.reverse := by
      rw [List.mem_reverse]
      exact fun hm => (List.nodup_append'.1 h).2.2 hm (List.mem_cons_self ..)
    refine (follows_beginWriteEpoch_once (g := ⟨marked.reverse, []⟩) hnot).bind fun r g' hg => ?_
    cases r with
    | error err =>
      obtain rfl : g' = ⟨marked.reverse, []⟩ := hg
      refine ⟨⟨fun _ _ hx => absurd hx List.not_mem_nil, (List.nodup_append'.1 h).1,
        fun x hx => ⟨List.mem_reverse.2 hx, List.not_mem_nil⟩⟩, fun _ x hx => ?_⟩
      exact List.mem_append_left _ (List.mem_reverse.1 hx)
    | ok _ =>
      obtain rfl : g' = ⟨e :: marked.reverse, []⟩ := hg
      have hrev : (marked ++ [e]).reverse = e :: marked.reverse := by simp
      rw [hsplit] at h ⊢
      exact hrev ▸ ih h

theorem follows_commitAndFold_neutral (edits : List MerkleEdit) (rows : List Row) :
    Follows markProtocol (fun _ g' => g' = g) g (commitAndFold edits rows) := by
  refine (follows_commitWrites_neutral _).bind fun r g' hg => ?_
  obtain rfl : g' = g := hg
  cases r with
  | error err => rfl
  | ok _ =>
    refine (neutral_of_no_marks (fun _ => rfl) rfl).call fun _ => ?_
    exact (follows_publishAll fun _ _ => neutral_of_no_marks (fun _ => rfl) rfl).bind
      fun _ _ hg => hg

/-- **A write gives back every mark that it took**, whatever fails. -/
theorem follows_writeRows_settled {es : List Epoch} (h : es.Nodup) (edits : List MerkleEdit)
    (rows : List Row) :
    Follows markProtocol (fun _ => MarkLog.Settled) MarkLog.start (writeRows es edits rows) := by
  have hnil : ([] ++ es).Nodup := h
  refine (follows_beginWriteEpochsFrom_once hnil).bind fun r g' hg => ?_
  cases r with
  | error err => exact hg
  | ok _ =>
    obtain rfl : g' = ⟨es.reverse, []⟩ := hg
    refine (follows_commitAndFold_neutral edits rows).bind fun r g' hg => ?_
    obtain rfl : g' = ⟨es.reverse, []⟩ := hg
    refine ⟨⟨fun _ _ hx => absurd hx List.not_mem_nil, h,
      fun x hx => ⟨List.mem_reverse.2 hx, List.not_mem_nil⟩⟩, fun _ x hx => ?_⟩
    exact List.mem_append_left _ (List.mem_reverse.1 hx)

/-- Sealing concerns no marks. -/
theorem follows_sealCandidates_neutral (newly es : List Epoch) :
    Follows markProtocol (fun _ g' => g' = g) g (sealCandidates newly es) := by
  induction es generalizing newly with
  | nil => rfl
  | cons e es ih =>
    refine (neutral_of_no_marks (fun _ => rfl) rfl).call fun _ => ?_
    refine (neutral_of_no_marks (fun _ => rfl) rfl).call fun sealing => ?_
    cases sealing with
    | false => exact (neutral_of_no_marks (fun _ => rfl) rfl).call fun _ => ih newly
    | true =>
      refine (neutral_of_no_marks (fun _ => rfl) rfl).call fun bytes => ?_
      cases bytes with
      | none =>
        refine (neutral_of_no_marks (fun _ => rfl) rfl).call fun _ => ?_
        exact (neutral_of_no_marks (fun _ => rfl) rfl).call fun _ => ih newly
      | some b =>
        refine (follows_commitWrites_neutral _).bind fun r g' hg => ?_
        obtain rfl : g' = g := hg
        cases r with
        | error err =>
          refine (neutral_of_no_marks (fun _ => rfl) rfl).call fun _ => ?_
          exact (neutral_of_no_marks (fun _ => rfl) rfl).call fun _ => rfl
        | ok _ => exact (neutral_of_no_marks (fun _ => rfl) rfl).call fun _ => ih _

theorem nodup_distinctEpochs (keys : List Key) : (distinctEpochs keys).Nodup :=
  (pairwise_toList _).imp ne_of_lt

variable [Sha256]

/-- **Every method keeps to the protocol of the marks**, and ends with nothing held. -/
theorem settled_prog (ix : HybridSpatioTemporalIndexer) (c : StoreCall) :
    Follows markProtocol (fun _ => MarkLog.Settled) MarkLog.start (c.prog ix) := by
  have hstart : MarkLog.start.Settled := fun _ he => absurd he List.not_mem_nil
  cases c with
  | store x =>
    exact Follows.map (Except.map _) (Follows.map (Except.map _)
      (follows_writeRows_settled (List.nodup_singleton _) _ _))
  | storeBatch xs =>
    exact Follows.map (Except.map _) (Follows.map (Except.map _)
      (follows_writeRows_settled (nodup_distinctEpochs _) _ _))
  | ingest k v =>
    refine (neutral_of_no_marks (fun _ => rfl) rfl).call fun r => ?_
    cases r with
    | error err => exact hstart
    | ok existing =>
      show Follows _ _ _ (if keepsExisting k v existing then _ else _)
      split_ifs
      · exact hstart
      · exact Follows.map (Except.map _) (follows_writeRows_settled (List.nodup_singleton _) _ _)
  | sealSettledEpochs now grace =>
    refine Follows.map (Except.map _)
      ((neutral_of_no_marks (fun _ => rfl) rfl).call fun epochs => ?_)
    refine (follows_sealCandidates_neutral [] _).mono fun _ g' hg => ?_
    rw [hg]
    exact hstart

end Follows

/-! ## The decrement -/

namespace SealState

/-- One round of `end_write_epochs`, with `*n -= 1` checked. -/
def checkedUnmark (s : SealState) (epoch : Epoch) : Option SealState :=
  match s.inflight[epoch]? with
  | none => some s
  | some n => do
    let n ← Checked.sub n 1
    return { s with
      inflight := if n = 0 then s.inflight.erase epoch else s.inflight.insert epoch n }

variable {s : SealState}

theorem Counted.checkedUnmark (h : s.Counted) (e : Epoch) :
    s.checkedUnmark e = some (s.unmark e) := by
  unfold SealState.checkedUnmark SealState.unmark
  cases hn : s.inflight[e]? with
  | none => rfl
  | some n =>
    have hpos : 1 ≤ n := Nat.one_le_iff_ne_zero.2 fun h₀ => h e (by rw [hn, h₀])
    simp only [Checked.sub_eq_some.2 ⟨hpos, rfl⟩, Option.bind_eq_bind, Option.bind_some,
      Option.pure_def]

/-- **The decrement of `end_write_epochs` does not underflow** where every entry is counted. -/
theorem Counted.foldlM_checkedUnmark (h : s.Counted) (es : List Epoch) :
    es.foldlM SealState.checkedUnmark s = some (es.foldl SealState.unmark s) := by
  induction es generalizing s with
  | nil => rfl
  | cons e es ih =>
    rw [List.foldlM_cons, h.checkedUnmark e]
    exact ih (h.unmark e)

/-- A counted table has an entry where there are marks, and it is their number. -/
theorem Counted.inflight_eq_some (h : s.Counted) {e : Epoch} {n : ℕ} :
    s.inflight[e]? = some n ↔ s.marks e = n ∧ n ≠ 0 := by
  rw [marks, Std.ExtTreeMap.getD_eq_getD_getElem?]
  cases hn : s.inflight[e]? with
  | none =>
    simp only [reduceCtorEq, Option.getD_none, false_iff, not_and, not_not]
    exact Eq.symm
  | some m =>
    have hm : m ≠ 0 := fun h₀ => h e (by rw [hn, h₀])
    rw [Option.some.injEq, Option.getD_some, iff_self_and]
    rintro rfl
    exact hm

end SealState

/-! ## The invariant -/

/-- **The invariant of the marks**: the store counts the threads that hold one. -/
structure MarkInv (s : SpatioTemporalStore L) (gs : List MarkLog) : Prop where
  marks : ∀ e, s.sealState.marks e = gs.countP fun g => g.Holds e
  sound : ∀ g ∈ gs, g.Sound

section Runs

variable [Sha256] {pol : KvPolicy} {s s' : SpatioTemporalStore L} {g : MarkLog} {l : List MarkLog}

omit [Sha256] in
theorem MarkInv.perm {gs : List MarkLog} (h : MarkInv s gs) (hp : gs.Perm l) : MarkInv s l :=
  ⟨fun e => (h.marks e).trans (hp.countP_eq _), fun g hg => h.sound g (hp.mem_iff.2 hg)⟩

/-- **What an operation does to the marks of the store.** -/
theorem marks_step {o : StoreOp} {r : o.Resp} (ho : storeSem L pol o s r s') (e : Epoch) :
    s'.sealState.marks e = s.sealState.marks e + (o.marked r).count e - o.released.count e := by
  have hone : ∀ (t : SealState) (e' : Epoch),
      (t.mark e').marks e = t.marks e + [e'].count e - ([] : List Epoch).count e := by
    intro t e'
    rw [SealState.marks_mark, List.count_singleton, List.count_nil, Nat.sub_zero]
    simp only [beq_iff_eq]
  rw [sealState_step ho]
  cases o with
  | markUnlessSealed e' =>
    cases r with
    | true => exact hone _ _
    | false => rfl
  | removeSealedAndMark e' => exact hone (s.sealState.removeSealed e') e'
  | endMarks es => exact SpatioTemporalStore.marks_foldl_unmark es s.sealState e
  | trySeal e' =>
    cases r with
    | true => rfl
    | false => rfl
  | _ => rfl

/-- **An operation that the protocol allows keeps the invariant.** -/
theorem MarkInv.step {o : StoreOp} {r : o.Resp} (h : MarkInv s (g :: l)) (ha : g.allow o)
    (ho : storeSem L pol o s r s') : MarkInv s' (g.next o r :: l) := by
  have hg := h.sound g (List.mem_cons_self ..)
  refine ⟨fun e => ?_, fun x hx => ?_⟩
  · have hmarks := h.marks e
    have hholds := MarkLog.toNat_holds_next hg ha r e
    rw [List.countP_cons] at hmarks ⊢
    rw [marks_step ho e, hmarks]
    cases hd : decide (g.Holds e) <;> cases hd' : decide ((g.next o r).Holds e) <;>
      simp only [hd, hd', Bool.toNat_true, Bool.toNat_false, ↓reduceIte,
        Bool.false_eq_true] at * <;>
      omega
  · rcases List.mem_cons.1 hx with rfl | hx
    · exact hg.next ha r
    · exact h.sound x (List.mem_cons_of_mem _ hx)

/-- The logs of the threads of a pool keep the invariant. -/
abbrev MarkTracked (c : Pool storeSig (SpatioTemporalStore L) (Except String Bool)) : Prop :=
  Tracked (P := markProtocol) (fun _ => MarkLog.Settled) (· = MarkLog.start) MarkInv c

omit [Sha256] in
/-- A thread that starts holds nothing. -/
theorem MarkInv.start {gs : List MarkLog} (h : MarkInv s gs) :
    MarkInv s (gs ++ [MarkLog.start]) := by
  refine ⟨fun e => ?_, fun g hg => ?_⟩
  · rw [List.countP_append, h.marks e]
    rfl
  · rcases List.mem_append.1 hg with hg | hg
    · exact h.sound g hg
    · rw [List.mem_singleton.1 hg]
      exact MarkLog.sound_start

theorem markTracked_step {c c' : Pool storeSig (SpatioTemporalStore L) (Except String Bool)}
    (h : Pool.Step (storeSem L pol) IsMethod (fun _ _ => True) c c') (hc : MarkTracked c) :
    MarkTracked c' := by
  refine Tracked.step (fun hJ _ _ ha ho => ?_) ?_ h hc
  · exact ((hJ.perm List.perm_middle).step ha ho).perm List.perm_middle.symm
  · rintro p ⟨ix, call, rfl⟩
    exact ⟨MarkLog.start, rfl, settled_prog ix call, fun s gs hJ => hJ.start⟩

theorem markTracked_of_runs {ix : HybridSpatioTemporalIndexer} {kv : KvTree}
    {c : Pool storeSig (SpatioTemporalStore L) (Except String Bool)}
    (h : Pool.Runs (storeSem L pol) IsMethod (fun _ _ => True) ⟨openStore L ix kv, []⟩ c) :
    MarkTracked c := by
  induction h with
  | refl => exact tracked_nil ⟨fun _ => rfl, fun _ hg => absurd hg List.not_mem_nil⟩
  | tail _ hstep ih => exact markTracked_step hstep ih

/-- The calls that are between their begin mark and their end mark for the epoch. -/
def writers (c : Pool storeSig (SpatioTemporalStore L) (Except String Bool)) (e : Epoch) : ℕ :=
  c.threads.countP fun t => (markLog t.past).Holds e

omit [Sha256] in
theorem MarkInv.marks_eq_writers
    {c : Pool storeSig (SpatioTemporalStore L) (Except String Bool)}
    {m : List (MarkLog × Thread storeSig (Except String Bool))} (hm : m.map Prod.snd = c.threads)
    (hlog : ∀ x ∈ m, x.1 = markLog x.2.past) (h : MarkInv c.state (m.map Prod.fst)) (e : Epoch) :
    c.state.sealState.marks e = writers c e := by
  rw [h.marks e, writers, ← hm, List.countP_map, List.countP_map]
  refine List.countP_congr fun x hx => ?_
  simp only [Function.comp_apply, hlog x hx]

omit [Sha256] in
/-- **What the invariant says of the calls**, each by its own log. -/
theorem MarkTracked.spec {c : Pool storeSig (SpatioTemporalStore L) (Except String Bool)}
    (h : MarkTracked c) :
    (∀ e, c.state.sealState.marks e = writers c e) ∧ ∀ t ∈ c.threads, (markLog t.past).Sound ∧
      Follows markProtocol (fun _ => MarkLog.Settled) (markLog t.past) t.prog := by
  obtain ⟨l, hl, ht, hJ⟩ := h
  have hlog : ∀ x ∈ l, x.1 = markLog x.2.past := by
    intro x hx
    obtain ⟨g₀, rfl, hg⟩ := (ht x hx).past
    rw [hg, replay_markProtocol]
  refine ⟨hJ.marks_eq_writers hl hlog, fun t ht' => ?_⟩
  rw [← hl] at ht'
  obtain ⟨x, hx, rfl⟩ := List.mem_map.1 ht'
  rw [← hlog x hx]
  exact ⟨hJ.sound x.1 (List.mem_map_of_mem hx), (ht x hx).follows⟩

/-- **The in-flight table counts the writers exactly.** On an opened store, whichever methods run
interleaved and whichever of their transactions fail, in every state:

* an epoch has an entry exactly when some call holds a mark on it, and the entry is the number of
  these calls, never `0`;
* no call marks an epoch twice, gives a mark back twice or gives back one that it does not hold;
* the decrement of an end mark that is due does not underflow, and finds an entry for every epoch;
* when every call has returned, the table is empty. -/
theorem inflight_counts_writers {ix : HybridSpatioTemporalIndexer} {kv : KvTree}
    {c : Pool storeSig (SpatioTemporalStore L) (Except String Bool)}
    (h : Pool.Runs (storeSem L pol) IsMethod (fun _ _ => True) ⟨openStore L ix kv, []⟩ c) :
    (∀ e, (c.state.sealState.inflight[e]?).isSome ↔
      ∃ t ∈ c.threads, (markLog t.past).Holds e) ∧
    (∀ e n, c.state.sealState.inflight[e]? = some n → n = writers c e ∧ n ≠ 0) ∧
    (∀ t ∈ c.threads, (markLog t.past).Sound) ∧
    (∀ past es k, ⟨past, .call (.endMarks es) k⟩ ∈ c.threads →
      es.Nodup ∧ (∀ e ∈ es, (markLog past).Holds e ∧ (c.state.sealState.inflight[e]?).isSome) ∧
        es.foldlM SealState.checkedUnmark c.state.sealState =
          some (es.foldl SealState.unmark c.state.sealState)) ∧
    ((∀ t ∈ c.threads, ∃ a, t.prog = .ret a) → c.state.sealState.inflight = ∅) := by
  have hcounted := counted_of_runs h
  obtain ⟨hmarks, hthread⟩ := (markTracked_of_runs h).spec
  have hsome : ∀ e, (c.state.sealState.inflight[e]?).isSome ↔
      ∃ t ∈ c.threads, (markLog t.past).Holds e := by
    intro e
    rw [Option.isSome_iff_ne_none, ne_eq, hcounted.inflight_eq_none, hmarks e, writers, ← ne_eq,
      ← Nat.pos_iff_ne_zero, List.countP_pos_iff]
    simp only [decide_eq_true_eq]
  refine ⟨hsome, fun e n hn => ?_, fun t ht => (hthread t ht).1, fun past es k ht => ?_,
    fun hdone => ?_⟩
  · obtain ⟨rfl, hpos⟩ := hcounted.inflight_eq_some.1 hn
    exact ⟨hmarks e, hpos⟩
  · -- the end mark is the next operation of the call, so the protocol allows it
    obtain ⟨⟨-, hnodup, hheld⟩, -⟩ := (hthread _ ht).2
    exact ⟨hnodup, fun e he => ⟨hheld e he, (hsome e).2 ⟨_, ht, hheld e he⟩⟩,
      hcounted.foldlM_checkedUnmark es⟩
  · refine Std.ExtTreeMap.ext_getElem? fun e => ?_
    rw [Std.ExtTreeMap.getElem?_empty, ← Option.not_isSome_iff_eq_none, hsome e]
    rintro ⟨t, ht, hholds⟩
    obtain ⟨a, ha⟩ := hdone t ht
    have hfollows := (hthread t ht).2
    rw [ha] at hfollows
    have hsettled : (markLog t.past).Settled := hfollows
    exact hsettled.not_holds e hholds

end Runs

/-! ## Two writers of one epoch -/

section Sample

local instance inFlightSha : Sha256 := sampleDigests

/-- Two writes to one epoch that start on an empty disk. -/
def twoWriters : Pool storeSig (SpatioTemporalStore merkleLeafDepth) (Except String Bool) :=
  ⟨sampleStore, [.new ((storeCorner 0 [0x61]).prog testIndexer),
    .new ((storeCorner 0 [0x62]).prog testIndexer)]⟩

theorem inflight_counts_writers_sample : ∃ c,
    Pool.schedule StoreOp.run (fun _ _ => true) [0, 1] twoWriters = some c ∧ writers c 0 = 2 := by
  have hentry : ((Pool.schedule StoreOp.run (fun _ _ => true) [0, 1] twoWriters).bind
      fun c => c.state.sealState.inflight[(0 : Epoch)]?) = some 2 := by decide +kernel
  obtain ⟨c, hc, hentry⟩ := Option.bind_eq_some_iff.1 hentry
  have hruns : Pool.Runs (storeSem merkleLeafDepth .faulty) IsMethod (fun _ _ => True)
      ⟨openStore merkleLeafDepth testIndexer .empty, []⟩ c := by
    refine .head (.start ⟨testIndexer, storeCorner 0 [0x61], rfl⟩)
      (.head (.start ⟨testIndexer, storeCorner 0 [0x62], rfl⟩) ?_)
    exact Pool.runs_of_schedule (fun _ _ _ _ => sem_faulty) (fun _ _ _ => trivial) hc
  exact ⟨c, hc, ((inflight_counts_writers hruns).2.1 0 2 hentry).1.symm⟩

end Sample

end InterstellarDb
