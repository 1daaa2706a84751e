import Mathlib.Data.List.Basic

/-!
# Bounded queues with loss

A queue of bounded length between senders that never wait and one receiver. A message that finds no
room, or no receiver, is lost (`trySend`).

* A `Mailbox` is a queue with what its receiver has read so far. Reading moves a message and loses
  none: what was accepted is what was read, followed by what waits (`accepted_read`).
* A `Channel` is the interface of an implementation, and `Channel.Models` says that it behaves as a
  bounded queue.
-/

namespace InterstellarDb

variable {ε : Type}

/-- A bounded queue, oldest message first, and whether its receiver is gone. -/
@[ext] structure BoundedQueue (ε : Type) where
  capacity : ℕ
  queue : List ε
  closed : Bool
  length_le : queue.length ≤ capacity

namespace BoundedQueue

/-- An empty queue with a receiver. -/
def new (capacity : ℕ) : BoundedQueue ε := ⟨capacity, [], false, Nat.zero_le _⟩

/-- Another message fits. -/
def HasRoom (q : BoundedQueue ε) : Prop := q.queue.length < q.capacity

instance (q : BoundedQueue ε) : Decidable q.HasRoom := inferInstanceAs (Decidable (_ < _))

/-- Send a message without waiting; it is lost where there is no room or no receiver. -/
def trySend (q : BoundedQueue ε) (x : ε) : BoundedQueue ε :=
  if h : q.closed = false ∧ q.HasRoom then
    { q with
      queue := q.queue ++ [x]
      length_le := by
        rw [List.length_append]
        exact h.2 }
  else q

/-- Take the oldest message, if there is one. -/
def recv (q : BoundedQueue ε) : Option ε × BoundedQueue ε :=
  (q.queue.head?, { q with
    queue := q.queue.tail
    length_le := by
      rw [List.length_tail]
      exact Nat.le_trans (Nat.sub_le _ _) q.length_le })

/-- The receiver goes, and what waits with it. -/
def close (q : BoundedQueue ε) : BoundedQueue ε := ⟨q.capacity, [], true, Nat.zero_le _⟩

variable {q : BoundedQueue ε}

theorem trySend_of_closed (h : q.closed = true) (x : ε) : q.trySend x = q :=
  dif_neg fun hroom => by simp [h] at hroom

@[simp] theorem closed_trySend (q : BoundedQueue ε) (x : ε) : (q.trySend x).closed = q.closed := by
  unfold trySend
  split_ifs
  · rfl
  · rfl

@[simp] theorem capacity_trySend (q : BoundedQueue ε) (x : ε) :
    (q.trySend x).capacity = q.capacity := by
  unfold trySend
  split_ifs
  · rfl
  · rfl

theorem queue_trySend (h : q.closed = false) (x : ε) :
    (q.trySend x).queue = q.queue ++ if q.HasRoom then [x] else [] := by
  unfold trySend
  by_cases hroom : q.HasRoom
  · rw [dif_pos ⟨h, hroom⟩, if_pos hroom]
  · rw [dif_neg fun hr => hroom hr.2, if_neg hroom, List.append_nil]

end BoundedQueue

/-! ## Mailboxes -/

/-- A queue, and the messages that its receiver has read, oldest first. -/
structure Mailbox (ε : Type) where
  box : BoundedQueue ε
  taken : List ε

namespace Mailbox

/-- Send a message without waiting. -/
def send (m : Mailbox ε) (x : ε) : Mailbox ε := { m with box := m.box.trySend x }

/-- The receiver, while it is there, reads the oldest message. -/
def read (m : Mailbox ε) : Mailbox ε :=
  if m.box.closed then m else ⟨m.box.recv.2, m.taken ++ m.box.recv.1.toList⟩

/-- The receiver goes. -/
def close (m : Mailbox ε) : Mailbox ε := { m with box := m.box.close }

/-- What was accepted: the messages read, then those that wait. -/
def accepted (m : Mailbox ε) : List ε := m.taken ++ m.box.queue

variable {m : Mailbox ε}

theorem send_of_closed (h : m.box.closed = true) (x : ε) : m.send x = m := by
  rw [send, BoundedQueue.trySend_of_closed h]

@[simp] theorem closed_send (m : Mailbox ε) (x : ε) : (m.send x).box.closed = m.box.closed :=
  BoundedQueue.closed_trySend m.box x

@[simp] theorem closed_read (m : Mailbox ε) : m.read.box.closed = m.box.closed := by
  unfold read
  split_ifs
  · rfl
  · rfl

@[simp] theorem closed_close (m : Mailbox ε) : m.close.box.closed = true := rfl

/-- **A message is accepted** when it finds room. -/
theorem accepted_send (h : m.box.closed = false) (x : ε) :
    (m.send x).accepted = m.accepted ++ if m.box.HasRoom then [x] else [] := by
  rw [accepted, accepted, send, BoundedQueue.queue_trySend h, List.append_assoc]

/-- **Reading loses nothing.** -/
theorem accepted_read (m : Mailbox ε) : m.read.accepted = m.accepted := by
  have hsplit : m.box.queue.head?.toList ++ m.box.queue.tail = m.box.queue := by
    cases m.box.queue with
    | nil => rfl
    | cons x rest => rfl
  unfold read
  split_ifs
  · rfl
  · rw [accepted, accepted, List.append_assoc]
    exact congrArg (m.taken ++ ·) hsplit

end Mailbox

/-! ## Channels -/

/-- The interface of a bounded channel: creating one (which may be refused), the two calls of a
sender that never waits, and reading and dropping the receiver. -/
structure Channel (ε : Type) where
  Chan : Type
  new : ℕ → Option Chan
  isClosed : Chan → Bool
  trySend : Chan → ε → Chan
  recv : Chan → Option ε × Chan
  drop : Chan → Chan

/-- The channel behaves as the bounded queue that `view` sees in it. -/
structure Channel.Models (C : Channel ε) (view : C.Chan → BoundedQueue ε) : Prop where
  new : ∀ {n c}, C.new n = some c → view c = .new n
  isClosed : ∀ c, C.isClosed c = (view c).closed
  trySend : ∀ c x, view (C.trySend c x) = (view c).trySend x
  recv : ∀ c, (C.recv c).1 = (view c).recv.1 ∧ view (C.recv c).2 = (view c).recv.2
  drop : ∀ c, view (C.drop c) = (view c).close

/-- The bounded queues themselves, of a capacity from `1` to `max`. -/
def queueChannel (ε : Type) (max : ℕ) : Channel ε where
  Chan := BoundedQueue ε
  new := fun n => if 0 < n ∧ n ≤ max then some (.new n) else none
  isClosed := BoundedQueue.closed
  trySend := BoundedQueue.trySend
  recv := BoundedQueue.recv
  drop := BoundedQueue.close

theorem models_queueChannel (max : ℕ) : (queueChannel ε max).Models id where
  new := by
    intro n c h
    change (if 0 < n ∧ n ≤ max then some (BoundedQueue.new n) else none) = some c at h
    split_ifs at h
    exact (Option.some.inj h).symm
  isClosed := fun _ => rfl
  trySend := fun _ _ => rfl
  recv := fun _ => ⟨rfl, rfl⟩
  drop := fun _ => rfl

end InterstellarDb
