import InterstellarDb.Foundations.BoundedQueue

/-!
# Relays

A task sends items over a bounded queue and waits while the queue is full; a receiver reads, and may
go, and then the next send fails and the task ends.

* What the receiver has read, what waits in the queue and what the task still has to send are, in
  this order, the items that the task was given (`Relay.Flows.step`). So whatever the receiver has
  read is a first part of them, also when it has gone.
* Rounds of a send and a read deliver all of them (`Relay.Flows.taken_rounds`).
-/

namespace InterstellarDb

variable {ε : Type}

/-! ## Channels whose senders wait -/

/-- What an attempt to send answers. -/
inductive Sent (γ : Type) where
  | waits
  | sent (c : γ)
  | refused

/-- The interface of a bounded channel whose sender can wait for room. -/
structure WaitingChannel (ε : Type) extends Channel ε where
  send : Chan → ε → Sent Chan

/-- The channel behaves as the bounded queue that `view` sees in it, and an attempt to send is
refused when the receiver is gone, waits when there is no room, and else queues the item. -/
structure WaitingChannel.Models (W : WaitingChannel ε) (view : W.Chan → BoundedQueue ε) : Prop
    extends W.toChannel.Models view where
  refused : ∀ c x, (view c).closed = true → W.send c x = .refused
  waits : ∀ c x, (view c).closed = false → ¬ (view c).HasRoom → W.send c x = .waits
  sent : ∀ c x, (view c).closed = false → (view c).HasRoom →
    ∃ c', W.send c x = .sent c' ∧ view c' = (view c).trySend x

/-- The bounded queues themselves. -/
def waitingQueue (ε : Type) (max : ℕ) : WaitingChannel ε where
  toChannel := queueChannel ε max
  send := fun (q : BoundedQueue ε) x =>
    if q.closed then .refused else if q.HasRoom then .sent (q.trySend x) else .waits

theorem models_waitingQueue (max : ℕ) : (waitingQueue ε max).Models id where
  toModels := models_queueChannel max
  refused := fun _ _ h => if_pos h
  waits := fun (q : BoundedQueue ε) x h hfull => by
    have hopen : ¬ q.closed = true := Bool.eq_false_iff.1 h
    exact (if_neg hopen).trans (if_neg hfull)
  sent := fun (q : BoundedQueue ε) x h hroom => by
    have hopen : ¬ q.closed = true := Bool.eq_false_iff.1 h
    exact ⟨q.trySend x, (if_neg hopen).trans (if_pos hroom), rfl⟩

/-! ## Relays -/

/-- A task with the items that it still has to send, its channel, and what the receiver has read,
oldest first. A task that was refused has ended. -/
structure Relay (W : WaitingChannel ε) where
  pending : List ε
  chan : W.Chan
  taken : List ε
  ended : Bool

/-- A step of the task or of the receiver. -/
inductive RelayAction where
  | push
  | read
  | hangUp
  deriving DecidableEq

namespace Relay

variable {W : WaitingChannel ε}

/-- The task tries to send its next item. -/
def push (r : Relay W) : Relay W :=
  match r.pending with
  | [] => r
  | x :: rest =>
    match W.send r.chan x with
    | .waits => r
    | .sent c => { r with pending := rest, chan := c }
    | .refused => { r with pending := [], ended := true }

/-- The receiver reads, unless it has gone. -/
def read (r : Relay W) : Relay W :=
  if W.isClosed r.chan then r
  else { r with chan := (W.recv r.chan).2, taken := r.taken ++ (W.recv r.chan).1.toList }

/-- The receiver goes. -/
def hangUp (r : Relay W) : Relay W := { r with chan := W.drop r.chan }

/-- More items for the task, unless it has ended. -/
def give (r : Relay W) (xs : List ε) : Relay W :=
  if r.ended then r else { r with pending := r.pending ++ xs }

/-- What a step does. -/
def step (r : Relay W) : RelayAction → Relay W
  | .push => r.push
  | .read => r.read
  | .hangUp => r.hangUp

/-- The relay after steps, in order. -/
def after (r : Relay W) (acts : List RelayAction) : Relay W := acts.foldl step r

variable {view : W.Chan → BoundedQueue ε} {r : Relay W} {items : List ε}

/-- The items that a relay was given. While the receiver is there, the items that it has read, those
that wait and those that are left are all of them; when it has gone, it has read a first part. -/
structure Flows (view : W.Chan → BoundedQueue ε) (r : Relay W) (items : List ε) : Prop where
  taken : r.taken <+: items
  carried : (view r.chan).closed = false →
    r.ended = false ∧ r.taken ++ (view r.chan).queue ++ r.pending = items

/-- A relay on an empty queue. -/
theorem flows_start {c : W.Chan} {n : ℕ} (hc : view c = .new n) (items : List ε) :
    Flows view (⟨items, c, [], false⟩ : Relay W) items where
  taken := List.nil_prefix
  carried := fun _ => ⟨rfl, by simp [hc, BoundedQueue.new]⟩

/-- A task that has not ended takes more items. -/
theorem Flows.give (h : Flows view r items) (hended : r.ended = false) (xs : List ε) :
    Flows view (r.give xs) (items ++ xs) := by
  have hgive : r.give xs = { r with pending := r.pending ++ xs } := by simp [Relay.give, hended]
  rw [hgive]
  refine ⟨h.taken.trans (List.prefix_append _ _), fun hopen => ⟨hended, ?_⟩⟩
  rw [← List.append_assoc, (h.carried hopen).2]

theorem chan_give (r : Relay W) (xs : List ε) : (r.give xs).chan = r.chan := by
  unfold give
  split_ifs
  · rfl
  · rfl

theorem Flows.push (hW : W.Models view) (h : Flows view r items) : Flows view r.push items := by
  unfold Relay.push
  split
  · exact h
  · rename_i x rest hpending
    cases hclosed : (view r.chan).closed with
    | true =>
      rw [hW.refused _ _ hclosed]
      refine ⟨h.taken, fun hopen => ?_⟩
      rw [hclosed] at hopen
      cases hopen
    | false =>
      obtain ⟨hended, hcarried⟩ := h.carried hclosed
      by_cases hroom : (view r.chan).HasRoom
      · obtain ⟨c, hsent, hview⟩ := hW.sent _ x hclosed hroom
        rw [hsent]
        refine ⟨h.taken, fun _ => ⟨hended, ?_⟩⟩
        rw [hview, BoundedQueue.queue_trySend hclosed, if_pos hroom, ← hcarried, hpending]
        simp
      · rw [hW.waits _ _ hclosed hroom]
        exact h

theorem Flows.read (hW : W.Models view) (h : Flows view r items) : Flows view r.read items := by
  unfold Relay.read
  split_ifs with hc
  · exact h
  · have hclosed : (view r.chan).closed = false := by
      rw [← hW.isClosed]
      simpa using hc
    obtain ⟨hended, hcarried⟩ := h.carried hclosed
    obtain ⟨hfst, hsnd⟩ := hW.recv r.chan
    have hsplit : (r.taken ++ (W.recv r.chan).1.toList) ++ (view (W.recv r.chan).2).queue ++
        r.pending = items := by
      rw [hfst, hsnd, ← hcarried]
      cases hq : (view r.chan).queue with
      | nil => simp [BoundedQueue.recv, hq]
      | cons x rest => simp [BoundedQueue.recv, hq]
    refine ⟨?_, fun _ => ⟨hended, hsplit⟩⟩
    rw [← hsplit, List.append_assoc]
    exact List.prefix_append _ _

theorem Flows.hangUp (hW : W.Models view) (h : Flows view r items) :
    Flows view r.hangUp items := by
  refine ⟨h.taken, fun hopen => ?_⟩
  rw [Relay.hangUp, hW.drop] at hopen
  cases hopen

/-- **A step** loses no item while the receiver is there. -/
theorem Flows.step (hW : W.Models view) (h : Flows view r items) (act : RelayAction) :
    Flows view (r.step act) items := by
  cases act with
  | push => exact h.push hW
  | read => exact h.read hW
  | hangUp => exact h.hangUp hW

/-- A task that has ended does not go on. -/
theorem ended_step (h : r.ended = true) (act : RelayAction) : (r.step act).ended = true := by
  cases act with
  | push =>
    show r.push.ended = true
    unfold push
    split
    · exact h
    · split
      · exact h
      · exact h
      · rfl
  | read =>
    show r.read.ended = true
    unfold read
    split_ifs
    · exact h
    · exact h
  | hangUp => exact h

/-- A step gives the task nothing to send. -/
theorem length_pending_step (act : RelayAction) :
    (r.step act).pending.length ≤ r.pending.length := by
  cases act with
  | push =>
    show r.push.pending.length ≤ _
    unfold push
    split
    · exact Nat.le_refl _
    · rename_i x rest hpending
      split
      · exact Nat.le_refl _
      · simp [hpending]
      · simp
  | read =>
    show r.read.pending.length ≤ _
    unfold read
    split_ifs
    · exact Nat.le_refl _
    · exact Nat.le_refl _
  | hangUp => exact Nat.le_refl _

/-! ## Nothing but the receiver goes -/

theorem closed_step (hW : W.Models view) (h : (view r.chan).closed = false) (act : RelayAction)
    (hact : act ≠ .hangUp) : (view (r.step act).chan).closed = false := by
  cases act with
  | push =>
    show (view r.push.chan).closed = false
    unfold push
    split
    · exact h
    · rename_i x rest hpending
      by_cases hroom : (view r.chan).HasRoom
      · obtain ⟨c, hsent, hview⟩ := hW.sent _ x h hroom
        rw [hsent]
        simpa [hview] using h
      · rw [hW.waits _ _ h hroom]
        exact h
  | read =>
    show (view r.read.chan).closed = false
    unfold read
    split_ifs
    · exact h
    · rw [(hW.recv r.chan).2]
      exact h
  | hangUp => exact absurd rfl hact

/-- A step keeps the capacity of the queue. -/
theorem capacity_step (hW : W.Models view) (act : RelayAction) :
    (view (r.step act).chan).capacity = (view r.chan).capacity := by
  cases act with
  | push =>
    show (view r.push.chan).capacity = _
    unfold push
    split
    · rfl
    · rename_i x rest hpending
      cases hclosed : (view r.chan).closed with
      | true => rw [hW.refused _ _ hclosed]
      | false =>
        by_cases hroom : (view r.chan).HasRoom
        · obtain ⟨c, hsent, hview⟩ := hW.sent _ x hclosed hroom
          rw [hsent]
          simp [hview]
        · rw [hW.waits _ _ hclosed hroom]
  | read =>
    show (view r.read.chan).capacity = _
    unfold read
    split_ifs
    · rfl
    · rw [(hW.recv r.chan).2]
      rfl
  | hangUp =>
    show (view (W.drop r.chan)).capacity = _
    rw [hW.drop]
    rfl

/-! ## All items arrive -/

/-- The number of items that have not been read. -/
def unread (view : W.Chan → BoundedQueue ε) (r : Relay W) : ℕ :=
  r.pending.length + (view r.chan).queue.length

/-- Rounds of a send and a read. -/
def rounds : ℕ → List RelayAction
  | 0 => []
  | n + 1 => .push :: .read :: rounds n

/-- A read takes one item to the receiver, while one waits. -/
theorem unread_read (hW : W.Models view) (hopen : (view r.chan).closed = false) :
    unread view r.read = r.pending.length + ((view r.chan).queue.length - 1) := by
  have hc : ¬ W.isClosed r.chan = true := by
    rw [hW.isClosed, hopen]
    exact Bool.false_ne_true
  rw [read, if_neg hc, unread]
  dsimp only
  rw [(hW.recv r.chan).2]
  simp [BoundedQueue.recv]

/-- A round takes one item to the receiver, while there is one. -/
theorem unread_round (hW : W.Models view) (hopen : (view r.chan).closed = false)
    (hcap : 0 < (view r.chan).capacity) : unread view r.push.read = unread view r - 1 := by
  have hpush : (view r.push.chan).closed = false := closed_step hW hopen .push (by simp)
  rw [unread_read hW hpush, unread]
  unfold push
  split
  · rename_i hpending
    simp [hpending]
  · rename_i x rest hpending
    by_cases hroom : (view r.chan).HasRoom
    · obtain ⟨c, hsent, hview⟩ := hW.sent _ x hopen hroom
      have hqueue := BoundedQueue.queue_trySend hopen x
      rw [if_pos hroom] at hqueue
      rw [hsent]
      simp [hview, hqueue, hpending]
    · rw [hW.waits _ _ hopen hroom]
      have := (view r.chan).length_le
      simp only [BoundedQueue.HasRoom] at hroom
      simp
      omega

/-- **Rounds of a send and a read deliver all items.** -/
theorem Flows.taken_rounds (hW : W.Models view) (h : Flows view r items)
    (hopen : (view r.chan).closed = false) (hcap : 0 < (view r.chan).capacity) {n : ℕ}
    (hn : unread view r ≤ n) : (r.after (rounds n)).taken = items := by
  induction n generalizing r with
  | zero =>
    obtain ⟨-, hcarried⟩ := h.carried hopen
    obtain ⟨hpending, hqueue⟩ := Nat.add_eq_zero_iff.1 (Nat.le_zero.1 hn)
    rw [List.length_eq_zero_iff] at hpending hqueue
    rw [hpending, hqueue, List.append_nil, List.append_nil] at hcarried
    exact hcarried
  | succ n ih =>
    have hunread := unread_round hW hopen hcap
    have hcapacity : (view r.push.read.chan).capacity = (view r.chan).capacity :=
      (capacity_step hW (r := r.push) .read).trans (capacity_step hW .push)
    have hopen' : (view r.push.read.chan).closed = false :=
      closed_step hW (closed_step hW hopen .push (by simp)) .read (by simp)
    exact ih (r := r.push.read) ((h.push hW).read hW) hopen' (hcapacity ▸ hcap) (by omega)

end Relay

end InterstellarDb
