import Mathlib.Data.List.Basic
import InterstellarDb.Foundations.BoundedQueue
import InterstellarDb.Store.State

/-!
# The subscription hub

Region subscriptions, fed with the events of the change tap. The channels of the subscriptions are
a parameter (`Channel`); the hub keeps the sender of each, here the position of the channel among
all that were created, and the receiver is with the subscriber.

The locks make the steps of the hub and its subscribers: attaching a subscription; the two halves
of a dispatch, the fan-out under the read lock and the pruning under the write lock; and reading
from and dropping a receiver (`HubAction`). A dispatch of the loop of the hub is two such steps
(`dispatch_eq_after`).
-/

namespace InterstellarDb

/-- `Subscription`; `tx` is the channel. -/
structure Subscription where
  centerX : ℚ
  centerY : ℚ
  centerZ : ℚ
  /-- The squared radius. -/
  r2 : ℚ
  /-- Deliver only observations at most this old; `0` disables the filter. -/
  maxAgeSecs : ℕ
  tx : ℕ
  deriving DecidableEq

/-- The arguments of `attach`. -/
structure AttachCall where
  centerX : ℚ
  centerY : ℚ
  centerZ : ℚ
  radius : ℚ
  maxAgeSecs : ℕ
  buffer : ℕ
  deriving DecidableEq

/-- The subscription that a call registers, on its channel. -/
def AttachCall.subscription (a : AttachCall) (tx : ℕ) : Subscription :=
  ⟨a.centerX, a.centerY, a.centerZ, a.radius * a.radius, a.maxAgeSecs, tx⟩

variable {C : Channel ObservationEvent}

/-- A channel and what its receiver has read so far, oldest first. -/
structure Endpoint (C : Channel ObservationEvent) where
  chan : C.Chan
  taken : List ObservationEvent

/-- The subscriber reads, unless it has dropped the receiver. -/
def Endpoint.recv (ep : Endpoint C) : Endpoint C :=
  if C.isClosed ep.chan then ep
  else ⟨(C.recv ep.chan).2, ep.taken ++ (C.recv ep.chan).1.toList⟩

/-- The subscriber drops the receiver. -/
def Endpoint.drop (ep : Endpoint C) : Endpoint C := { ep with chan := C.drop ep.chan }

/-- `SubscriptionHub`, with the channels created so far and the number of dispatches that have
fanned out, met a closed channel and not pruned yet. -/
structure SubscriptionHub (C : Channel ObservationEvent) where
  subs : List Subscription
  endpoints : List (Endpoint C)
  pruning : ℕ

namespace SubscriptionHub

/-- `SubscriptionHub::new`. -/
def new : SubscriptionHub C := ⟨[], [], 0⟩

/-- `attach`. A buffer for which no channel is created panics before the lock is taken. -/
def attach (h : SubscriptionHub C) (a : AttachCall) : SubscriptionHub C :=
  match C.new a.buffer with
  | none => h
  | some chan =>
    { h with
      subs := h.subs ++ [a.subscription h.endpoints.length]
      endpoints := h.endpoints ++ [⟨chan, []⟩] }

/-- `tx.is_closed()`. -/
def isClosed (endpoints : List (Endpoint C)) (tx : ℕ) : Bool :=
  endpoints[tx]?.any fun ep => C.isClosed ep.chan

/-- One round of the fan-out, for one subscription: the channels, and whether a closed one was
met. -/
def visit (event : ObservationEvent) (nowSecs : ℕ) (acc : List (Endpoint C) × Bool)
    (sub : Subscription) : List (Endpoint C) × Bool :=
  let (endpoints, anyClosed) := acc
  if isClosed endpoints sub.tx then (endpoints, true)
  else if sub.maxAgeSecs > 0 ∧ nowSecs - event.timestampSecs > sub.maxAgeSecs then
    (endpoints, anyClosed)
  else
    let dx := event.x - sub.centerX
    let dy := event.y - sub.centerY
    let dz := event.z - sub.centerZ
    if dx * dx + dy * dy + dz * dz ≤ sub.r2 then
      (endpoints.modify sub.tx fun ep => { ep with chan := C.trySend ep.chan event }, anyClosed)
    else (endpoints, anyClosed)

/-- The first half of `dispatch`, under the read lock. -/
def fanOut (h : SubscriptionHub C) (event : ObservationEvent) (nowSecs : ℕ) : SubscriptionHub C :=
  let (endpoints, anyClosed) := h.subs.foldl (visit event nowSecs) (h.endpoints, false)
  { h with endpoints, pruning := h.pruning + anyClosed.toNat }

/-- The second half of a `dispatch` that met a closed channel, under the write lock. -/
def prune (h : SubscriptionHub C) : SubscriptionHub C :=
  if h.pruning = 0 then h
  else
    { h with
      subs := h.subs.filter fun sub => !isClosed h.endpoints sub.tx
      pruning := h.pruning - 1 }

/-- A subscriber reads from its receiver. -/
def recv (h : SubscriptionHub C) (i : ℕ) : SubscriptionHub C :=
  { h with endpoints := h.endpoints.modify i Endpoint.recv }

/-- A subscriber drops its receiver. -/
def dropReceiver (h : SubscriptionHub C) (i : ℕ) : SubscriptionHub C :=
  { h with endpoints := h.endpoints.modify i Endpoint.drop }

end SubscriptionHub

/-- A step of the hub or of a subscriber; subscribers are named by their channel. -/
inductive HubAction where
  | attach (a : AttachCall)
  | fanOut (event : ObservationEvent) (nowSecs : ℕ)
  | prune
  | recv (i : ℕ)
  | drop (i : ℕ)
  deriving DecidableEq

namespace SubscriptionHub

/-- What a step does. A prune without a dispatch that waits for it, or a step of a subscriber that
is not there, does nothing. -/
def step (h : SubscriptionHub C) : HubAction → SubscriptionHub C
  | .attach a => h.attach a
  | .fanOut event nowSecs => h.fanOut event nowSecs
  | .prune => h.prune
  | .recv i => h.recv i
  | .drop i => h.dropReceiver i

/-- The hub after steps, in order. -/
def after (h : SubscriptionHub C) (acts : List HubAction) : SubscriptionHub C := acts.foldl step h

@[simp] theorem after_nil (h : SubscriptionHub C) : h.after [] = h := rfl

@[simp] theorem after_cons (h : SubscriptionHub C) (act : HubAction) (acts : List HubAction) :
    h.after (act :: acts) = (h.step act).after acts := rfl

theorem after_append (h : SubscriptionHub C) (acts acts' : List HubAction) :
    h.after (acts ++ acts') = (h.after acts).after acts' :=
  List.foldl_append

/-! ## The loop of the hub -/

/-- `dispatch`, when no other step comes between its halves. -/
def dispatch (h : SubscriptionHub C) (event : ObservationEvent) (nowSecs : ℕ) :
    SubscriptionHub C :=
  let (endpoints, anyClosed) := h.subs.foldl (visit event nowSecs) (h.endpoints, false)
  let h := { h with endpoints }
  if anyClosed then { h with subs := h.subs.filter fun sub => !isClosed h.endpoints sub.tx } else h

/-- What the tap answers to `recv`. -/
inductive TapRecv where
  | ok (event : ObservationEvent) (nowSecs : ℕ)
  | lagged (missed : ℕ)
  | closed
  deriving DecidableEq

/-- `run`: dispatch the events of the tap until the store is dropped. -/
def run (h : SubscriptionHub C) : List TapRecv → SubscriptionHub C
  | [] => h
  | .ok event nowSecs :: rest => run (h.dispatch event nowSecs) rest
  | .lagged _ :: rest => run h rest
  | .closed :: _ => h

theorem pruning_dispatch (h : SubscriptionHub C) (event : ObservationEvent) (nowSecs : ℕ) :
    (h.dispatch event nowSecs).pruning = h.pruning := by
  dsimp only [dispatch]
  split_ifs
  · rfl
  · rfl

/-- **The two halves make up a dispatch.** -/
theorem dispatch_eq_after {h : SubscriptionHub C} (hp : h.pruning = 0) (event : ObservationEvent)
    (nowSecs : ℕ) : h.dispatch event nowSecs = h.after [.fanOut event nowSecs, .prune] := by
  simp only [after_cons, after_nil, step, fanOut, prune, dispatch, hp, zero_add]
  cases (h.subs.foldl (visit event nowSecs) (h.endpoints, false)).2 with
  | true => rfl
  | false => rfl

/-! ## One subscription in a fan-out -/

/-- What a visit does to the channel of its subscription. -/
def deliver (sub : Subscription) (event : ObservationEvent) (nowSecs : ℕ) (ep : Endpoint C) :
    Endpoint C :=
  if C.isClosed ep.chan then ep
  else if sub.maxAgeSecs > 0 ∧ nowSecs - event.timestampSecs > sub.maxAgeSecs then ep
  else if (event.x - sub.centerX) * (event.x - sub.centerX) +
      (event.y - sub.centerY) * (event.y - sub.centerY) +
      (event.z - sub.centerZ) * (event.z - sub.centerZ) ≤ sub.r2 then
    { ep with chan := C.trySend ep.chan event }
  else ep

section Visit

variable {event : ObservationEvent} {nowSecs : ℕ} {acc : List (Endpoint C) × Bool}
  {sub : Subscription}

/-- A visit changes no channel but that of its subscription. -/
theorem visit_of_ne {i : ℕ} (hi : sub.tx ≠ i) :
    (visit event nowSecs acc sub).1[i]? = acc.1[i]? := by
  dsimp only [visit]
  split_ifs
  · rfl
  · rfl
  · exact List.getElem?_modify_ne _ _ hi
  · rfl

/-- **A visit delivers** to the channel of its subscription. -/
theorem visit_self : (visit event nowSecs acc sub).1[sub.tx]? =
    acc.1[sub.tx]?.map (deliver sub event nowSecs) := by
  obtain ⟨endpoints, anyClosed⟩ := acc
  dsimp only [visit]
  cases hep : endpoints[sub.tx]? with
  | none =>
    split_ifs
    · exact hep
    · exact hep
    · rw [List.getElem?_modify_eq, hep]
      rfl
    · exact hep
  | some ep =>
    have hclosed : isClosed endpoints sub.tx = C.isClosed ep.chan := by
      rw [isClosed, hep]
      rfl
    rw [hclosed, Option.map_some, deliver]
    by_cases h₁ : C.isClosed ep.chan = true
    · rw [if_pos h₁, if_pos h₁]
      exact hep
    rw [if_neg h₁, if_neg h₁]
    by_cases h₂ : sub.maxAgeSecs > 0 ∧ nowSecs - event.timestampSecs > sub.maxAgeSecs
    · rw [if_pos h₂, if_pos h₂]
      exact hep
    rw [if_neg h₂, if_neg h₂]
    split_ifs
    · rw [List.getElem?_modify_eq, hep]
      rfl
    · exact hep

@[simp] theorem length_visit : (visit event nowSecs acc sub).1.length = acc.1.length := by
  dsimp only [visit]
  split_ifs
  · rfl
  · rfl
  · exact List.length_modify _ _ _
  · rfl

theorem length_foldl_visit (subs : List Subscription) :
    (subs.foldl (visit event nowSecs) acc).1.length = acc.1.length := by
  induction subs generalizing acc with
  | nil => rfl
  | cons sub subs ih => rw [List.foldl_cons, ih, length_visit]

/-- A fan-out changes no channel without a subscription. -/
theorem foldl_visit_of_not_mem {subs : List Subscription} {i : ℕ}
    (hi : ∀ sub ∈ subs, sub.tx ≠ i) :
    (subs.foldl (visit event nowSecs) acc).1[i]? = acc.1[i]? := by
  induction subs generalizing acc with
  | nil => rfl
  | cons sub subs ih =>
    rw [List.foldl_cons, ih fun x hx => hi x (List.mem_cons_of_mem _ hx),
      visit_of_ne (hi sub (List.mem_cons_self ..))]

/-- **A fan-out delivers once** to the channel of each subscription. -/
theorem foldl_visit_of_mem {subs : List Subscription} (hnodup : (subs.map (·.tx)).Nodup)
    (hsub : sub ∈ subs) :
    (subs.foldl (visit event nowSecs) acc).1[sub.tx]? =
      acc.1[sub.tx]?.map (deliver sub event nowSecs) := by
  induction subs generalizing acc with
  | nil => cases hsub
  | cons x subs ih =>
    rw [List.map_cons, List.nodup_cons] at hnodup
    rw [List.foldl_cons]
    rcases List.mem_cons.1 hsub with rfl | hsub
    · rw [foldl_visit_of_not_mem fun y hy heq => hnodup.1 (List.mem_map.2 ⟨y, hy, heq⟩), visit_self]
    · have hne : x.tx ≠ sub.tx :=
        fun heq => hnodup.1 (List.mem_map.2 ⟨sub, hsub, heq.symm⟩)
      rw [ih hnodup.2 hsub, visit_of_ne hne]

end Visit

end SubscriptionHub

end InterstellarDb
