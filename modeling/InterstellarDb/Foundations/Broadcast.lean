import Mathlib.Data.List.Basic

/-!
# Broadcast with a bounded buffer

A sender that never waits keeps its last messages for receivers that read at their own pace. A
receiver that falls behind by more than the buffer holds misses what was overwritten, and is told
how many messages that were.

* `poll` is one read of a receiver, on the log of all messages and its position in it.
* What a receiver has read is a sublist of the log from the place where it subscribed, and the
  messages that it did not read are those that it was told it missed (`Heard.poll`); so a receiver
  that missed none has read the log without gaps (`Heard.eq_of_missed`).
* A `Tap` is the interface of an implementation, and `Tap.Models` says that it is a log with
  positions.
-/

namespace InterstellarDb

variable {ε : Type}

/-- What a read answers. -/
inductive Polled (ε : Type) where
  | ok (x : ε)
  | lagged (missed : ℕ)
  | pending

/-- One read at a position of the log, of which the last `capacity` messages are kept. -/
def poll (log : List ε) (capacity pos : ℕ) : Polled ε × ℕ :=
  if capacity < log.length - pos then
    (.lagged (log.length - capacity - pos), log.length - capacity)
  else
    match log[pos]? with
    | none => (.pending, pos)
    | some x => (.ok x, pos + 1)

/-- The message that an answer brings. -/
def Polled.message : Polled ε → Option ε
  | .ok x => some x
  | _ => none

/-- The number of messages that an answer reports as missed. -/
def Polled.missed : Polled ε → ℕ
  | .lagged n => n
  | _ => 0

/-! ## What a receiver has heard -/

/-- A receiver that subscribed at the position `start` of the log, and is at `pos` by now, has read
some messages and was told that it missed some. -/
structure Heard (log : List ε) (start pos : ℕ) (read : List ε) (missed : ℕ) : Prop where
  le : pos ≤ log.length
  sublist : read.Sublist ((log.take pos).drop start)
  count : start + read.length + missed = pos

section Heard

variable {log : List ε} {start pos missed : ℕ} {read : List ε}

theorem heard_subscribe (log : List ε) : Heard log log.length log.length [] 0 :=
  ⟨Nat.le_refl _, List.nil_sublist _, rfl⟩

/-- The log grows. -/
theorem Heard.send (h : Heard log start pos read missed) (xs : List ε) :
    Heard (log ++ xs) start pos read missed where
  le := by
    rw [List.length_append]
    exact Nat.le_add_right_of_le h.le
  sublist := by
    rw [List.take_append_of_le_length h.le]
    exact h.sublist
  count := h.count

/-- **A read** brings the next message, reports what it missed, or does nothing. -/
theorem Heard.poll (h : Heard log start pos read missed) (capacity : ℕ) :
    Heard log start (poll log capacity pos).2
      (read ++ (poll log capacity pos).1.message.toList)
      (missed + (poll log capacity pos).1.missed) := by
  have hle := h.le
  have hcount := h.count
  have hmore : ∀ {n}, pos ≤ n → read.Sublist ((log.take n).drop start) := fun {n} hn => by
    refine h.sublist.trans (List.Sublist.drop ?_ start)
    rw [← Nat.min_eq_left hn, ← List.take_take]
    exact List.take_sublist _ _
  unfold InterstellarDb.poll
  split_ifs with hlag
  · simp only [Polled.message, Polled.missed, Option.toList_none, List.append_nil]
    exact ⟨by omega, hmore (by omega), by omega⟩
  · cases hx : log[pos]? with
    | none =>
      simp only [Polled.message, Polled.missed, Option.toList_none, List.append_nil, Nat.add_zero]
      exact h
    | some x =>
      obtain ⟨hlt, rfl⟩ := List.getElem?_eq_some_iff.1 hx
      simp only [Polled.message, Polled.missed, Option.toList_some, Nat.add_zero]
      refine ⟨hlt, ?_, by simp; omega⟩
      rw [← List.take_append_getElem hlt, List.drop_append_of_le_length (by simp; omega)]
      exact h.sublist.append (List.Sublist.refl _)

/-- **A receiver that missed nothing** has read the log without gaps. -/
theorem Heard.eq_of_missed (h : Heard log start pos read 0) :
    read = (log.take pos).drop start := by
  have hle := h.le
  have hcount := h.count
  refine h.sublist.eq_of_length ?_
  simp
  omega

end Heard

/-! ## Taps -/

/-- The interface of a broadcast channel: creating one, sending, subscribing, and reading. -/
structure Tap (ε : Type) where
  Ring : Type
  Cursor : Type
  new : ℕ → Ring
  send : Ring → ε → Ring
  subscribe : Ring → Cursor
  recv : Ring → Cursor → Polled ε × Cursor

/-- What is seen in a broadcast channel: the log of all messages, how many are kept, and where a
receiver is in it. -/
structure Tap.View (T : Tap ε) where
  log : T.Ring → List ε
  capacity : T.Ring → ℕ
  pos : T.Cursor → ℕ

/-- The channel is a log with positions, and keeps at least as many messages as it was created
for. -/
structure Tap.Models (T : Tap ε) (v : T.View) : Prop where
  new : ∀ n, v.log (T.new n) = [] ∧ n ≤ v.capacity (T.new n)
  send : ∀ r x, v.log (T.send r x) = v.log r ++ [x] ∧ v.capacity (T.send r x) = v.capacity r
  subscribe : ∀ r, v.pos (T.subscribe r) = (v.log r).length
  recv : ∀ r c, (T.recv r c).1 = (poll (v.log r) (v.capacity r) (v.pos c)).1 ∧
    v.pos (T.recv r c).2 = (poll (v.log r) (v.capacity r) (v.pos c)).2

/-- Logs and positions themselves. -/
def logTap (ε : Type) : Tap ε where
  Ring := List ε × ℕ
  Cursor := ℕ
  new := fun n => ([], n)
  send := fun r x => (r.1 ++ [x], r.2)
  subscribe := fun r => r.1.length
  recv := fun r c => poll r.1 r.2 c

theorem models_logTap : (logTap ε).Models ⟨Prod.fst, Prod.snd, id⟩ where
  new := fun _ => ⟨rfl, Nat.le_refl _⟩
  send := fun _ _ => ⟨rfl, rfl⟩
  subscribe := fun _ => rfl
  recv := fun _ _ => ⟨rfl, rfl⟩

end InterstellarDb
