import InterstellarDb.Foundations.Broadcast
import InterstellarDb.Hub.Delivery
import InterstellarDb.Server.Streams

/-!
# Live subscriptions

`subscribe` attaches a subscription to the hub and spawns a task that forwards its events to the
client. So an event goes from the change tap of the store, which keeps 1024 events for the hub,
through the buffer of the subscription, of 256 events, and the channel of the stream, of 256
responses. The store, the hub, the tasks and the clients all go at their own pace.

* The hub may fall behind the tap and miss events, and a full buffer drops an event; nothing else is
  lost. What a client has read are the responses to events that it asked for, in the order in which
  they were published, and each at most once (`Serves.step`).
* Every event that found room in the buffer reaches a client that reads on (`Serves.rounds`).
-/

namespace InterstellarDb

/-- `SubscribeRequest`. -/
structure SubscribeRequest where
  centerX : ℚ
  centerY : ℚ
  centerZ : ℚ
  radius : ℚ
  maxAgeSecs : ℕ
  deriving DecidableEq

/-- The call to `attach` in `Svc::subscribe`. -/
def SubscribeRequest.call (req : SubscribeRequest) : AttachCall :=
  ⟨req.centerX, req.centerY, req.centerZ, req.radius, req.maxAgeSecs, 256⟩

/-- The change tap, the place of the hub in it, the hub, and the forwarding tasks with their
streams, the one at a position for the subscription on the channel at the same position. -/
structure Live {α : Type} (T : Tap ObservationEvent) (C : Channel ObservationEvent)
    (W : WaitingChannel (Except Status (QueryResponse α))) where
  ring : T.Ring
  cursor : T.Cursor
  hub : SubscriptionHub C
  streams : List (Relay W)

/-- A step of the store, of the hub, of a new client, or of a stream: its task takes an event from
the subscription, sends it or is refused, and drops the subscription when it was refused. -/
inductive LiveAction where
  | publish (event : ObservationEvent)
  | poll (nowSecs : ℕ)
  | prune
  | subscribe (req : SubscribeRequest)
  | take (i : ℕ)
  | stream (i : ℕ) (act : RelayAction)
  | finish (i : ℕ)
  deriving DecidableEq

namespace Live

open SubscriptionHub

variable {α : Type} {T : Tap ObservationEvent} {C : Channel ObservationEvent}
  {W : WaitingChannel (Except Status (QueryResponse α))}

/-- The server before the first client. -/
def start : Live T C W := ⟨T.new 1024, T.subscribe (T.new 1024), .new, []⟩

/-- The loop of the hub reads from the tap, when it is done with the dispatch before. -/
def poll (l : Live T C W) (nowSecs : ℕ) : Live T C W :=
  if l.hub.pruning = 0 then
    match T.recv l.ring l.cursor with
    | (.ok event, cursor) => { l with cursor, hub := l.hub.fanOut event nowSecs }
    | (_, cursor) => { l with cursor }
  else l

/-- `Svc::subscribe`. -/
def subscribe (l : Live T C W) (req : SubscribeRequest) : Live T C W :=
  match C.new 256, W.new 256 with
  | some _, some tx =>
    { l with
      hub := l.hub.attach req.call
      streams := l.streams ++ [⟨[], tx, [], false⟩] }
  | _, _ => l

/-- What a client gets for an event. -/
def item (decode : Bytes → Option α) (event : ObservationEvent) :
    Except Status (QueryResponse α) := .ok (Svc.eventToResponse decode event)

/-- A forwarding task that has sent its last event takes the next one. -/
def take (decode : Bytes → Option α) (l : Live T C W) (i : ℕ) : Live T C W :=
  match l.hub.endpoints[i]?, l.streams[i]? with
  | some ep, some r =>
    if r.ended = false ∧ r.pending = [] then
      { l with
        hub := l.hub.recv i
        streams := l.streams.set i (r.give ((C.recv ep.chan).1.map (item decode)).toList) }
    else l
  | _, _ => l

/-- A forwarding task ends, and drops its receiver. -/
def finish (l : Live T C W) (i : ℕ) : Live T C W :=
  if l.streams[i]?.any Relay.ended then { l with hub := l.hub.dropReceiver i } else l

/-- What a step does. -/
def step (decode : Bytes → Option α) (l : Live T C W) : LiveAction → Live T C W
  | .publish event => { l with ring := T.send l.ring event }
  | .poll nowSecs => l.poll nowSecs
  | .prune => { l with hub := l.hub.prune }
  | .subscribe req => l.subscribe req
  | .take i => l.take decode i
  | .stream i act => { l with streams := l.streams.modify i (·.step act) }
  | .finish i => l.finish i

/-- The server after steps, in order. -/
def after (decode : Bytes → Option α) (l : Live T C W) (acts : List LiveAction) : Live T C W :=
  acts.foldl (step decode) l

/-- The dispatch of a step, with the hub that it meets. -/
def dispatch (l : Live T C W) : LiveAction → List (Dispatch C)
  | .poll nowSecs =>
    if l.hub.pruning = 0 then
      ((T.recv l.ring l.cursor).1.message.map fun event => ⟨event, nowSecs, l.hub⟩).toList
    else []
  | _ => []

/-- The number of events that the hub is told it missed. -/
def missing (l : Live T C W) : LiveAction → ℕ
  | .poll _ => if l.hub.pruning = 0 then (T.recv l.ring l.cursor).1.missed else 0
  | _ => 0

variable (decode : Bytes → Option α)

/-- The dispatches of a run, in order. -/
def dispatches (l : Live T C W) : List LiveAction → List (Dispatch C)
  | [] => []
  | act :: acts => l.dispatch act ++ dispatches (l.step decode act) acts

/-- The number of events that the hub misses in a run. -/
def missed (l : Live T C W) : List LiveAction → ℕ
  | [] => 0
  | act :: acts => l.missing act + missed (l.step decode act) acts

/-! ## The loop of the hub -/

/-- What the loop of the hub gets when it reads at the instant `nowSecs`, unless it waits. -/
def received (l : Live T C W) (nowSecs : ℕ) : List TapRecv :=
  match (T.recv l.ring l.cursor).1 with
  | .ok event => [.ok event nowSecs]
  | .lagged missed => [.lagged missed]
  | .pending => []

/-- Turns of the loop, each at an instant: a read, and the rest of the dispatch. -/
def turns : List ℕ → List LiveAction
  | [] => []
  | nowSecs :: nows => .poll nowSecs :: .prune :: turns nows

/-- What the loop gets in these turns. -/
def receivedIn (l : Live T C W) : List ℕ → List TapRecv
  | [] => []
  | nowSecs :: nows =>
    l.received nowSecs ++ receivedIn ((l.step decode (.poll nowSecs)).step decode .prune) nows

/-- A turn of the loop dispatches what it got. -/
theorem hub_turn {l : Live T C W} (h : l.hub.pruning = 0) (nowSecs : ℕ) :
    let turn := (l.step decode (.poll nowSecs)).step decode .prune
    turn.hub.pruning = 0 ∧ ∀ rest, l.hub.run (l.received nowSecs ++ rest) = turn.hub.run rest := by
  intro turn
  have hturn : turn.hub = (l.poll nowSecs).hub.prune := rfl
  have hquiet : l.hub.prune = l.hub := if_pos h
  unfold poll at hturn
  unfold received
  rw [if_pos h] at hturn
  cases hrecv : T.recv l.ring l.cursor with
  | mk answer cursor =>
    rw [hrecv] at hturn
    cases answer with
    | ok event =>
      have hdispatch : turn.hub = l.hub.dispatch event nowSecs :=
        hturn.trans (dispatch_eq_after h event nowSecs).symm
      rw [hdispatch, pruning_dispatch]
      exact ⟨h, fun rest => rfl⟩
    | lagged missed =>
      rw [hturn.trans hquiet]
      exact ⟨h, fun rest => rfl⟩
    | pending =>
      rw [hturn.trans hquiet]
      exact ⟨h, fun rest => rfl⟩

/-- **The turns of the loop are `run`**, as long as nobody else takes a step. -/
theorem hub_turns {l : Live T C W} (h : l.hub.pruning = 0) (nows : List ℕ) :
    (l.after decode (turns nows)).hub = l.hub.run (l.receivedIn decode nows) := by
  induction nows generalizing l with
  | nil => rfl
  | cons nowSecs nows ih =>
    obtain ⟨hpruning, hrun⟩ := hub_turn decode h nowSecs
    rw [receivedIn, hrun]
    exact ih hpruning

variable {decode}

/-! ## What the hub hears -/

section Heard

variable {v : T.View} {l : Live T C W} {missed origin : ℕ} {heard : List ObservationEvent}

theorem ring_poll (l : Live T C W) (nowSecs : ℕ) : (l.poll nowSecs).ring = l.ring := by
  unfold poll
  split_ifs
  · split <;> rfl
  · rfl

theorem cursor_poll (l : Live T C W) {nowSecs : ℕ} (h : l.hub.pruning = 0) :
    (l.poll nowSecs).cursor = (T.recv l.ring l.cursor).2 := by
  rw [poll, if_pos h]
  split
  · rename_i event cursor hrecv
    rw [hrecv]
  · rename_i answer cursor _ hrecv
    rw [hrecv]

theorem event_dispatch (l : Live T C W) {nowSecs : ℕ} (h : l.hub.pruning = 0) :
    (l.dispatch (.poll nowSecs)).map Dispatch.event =
      (T.recv l.ring l.cursor).1.message.toList := by
  rw [dispatch, if_pos h]
  cases (T.recv l.ring l.cursor).1.message with
  | none => rfl
  | some event => rfl

/-- Only the store and the loop of the hub use the tap. -/
theorem tap_step (l : Live T C W) (act : LiveAction) (hpublish : ∀ event, act ≠ .publish event)
    (hpoll : ∀ nowSecs, act ≠ .poll nowSecs) :
    (l.step decode act).ring = l.ring ∧ (l.step decode act).cursor = l.cursor := by
  cases act with
  | publish event => exact absurd rfl (hpublish event)
  | poll nowSecs => exact absurd rfl (hpoll nowSecs)
  | prune => exact ⟨rfl, rfl⟩
  | subscribe req =>
    show (l.subscribe req).ring = _ ∧ (l.subscribe req).cursor = _
    unfold subscribe
    split <;> exact ⟨rfl, rfl⟩
  | take i =>
    show (l.take decode i).ring = _ ∧ (l.take decode i).cursor = _
    unfold take
    split
    · split_ifs <;> exact ⟨rfl, rfl⟩
    · exact ⟨rfl, rfl⟩
  | stream i act => exact ⟨rfl, rfl⟩
  | finish i =>
    show (l.finish i).ring = _ ∧ (l.finish i).cursor = _
    unfold finish
    split_ifs <;> exact ⟨rfl, rfl⟩

variable (decode) in
/-- **A step keeps what the hub has heard** of the tap. -/
theorem heard_step (hT : T.Models v) (act : LiveAction)
    (h : Heard (v.log l.ring) origin (v.pos l.cursor) heard missed) :
    Heard (v.log (l.step decode act).ring) origin (v.pos (l.step decode act).cursor)
      (heard ++ (l.dispatch act).map Dispatch.event) (missed + l.missing act) := by
  have hquiet : l.dispatch act = [] → l.missing act = 0 →
      (l.step decode act).ring = l.ring ∧ (l.step decode act).cursor = l.cursor →
      Heard (v.log (l.step decode act).ring) origin (v.pos (l.step decode act).cursor)
        (heard ++ (l.dispatch act).map Dispatch.event) (missed + l.missing act) := by
    intro hdispatch hmissing htap
    rw [hdispatch, hmissing, htap.1, htap.2, List.map_nil, List.append_nil, Nat.add_zero]
    exact h
  cases act with
  | publish event =>
    show Heard (v.log (T.send l.ring event)) origin (v.pos l.cursor) (heard ++ []) (missed + 0)
    rw [(hT.send l.ring event).1, List.append_nil]
    exact h.send [event]
  | poll nowSecs =>
    by_cases hprune : l.hub.pruning = 0
    · obtain ⟨hanswer, hpos⟩ := hT.recv l.ring l.cursor
      have hmissing : l.missing (.poll nowSecs) = (T.recv l.ring l.cursor).1.missed := if_pos hprune
      rw [event_dispatch l hprune, hmissing, hanswer]
      show Heard (v.log (l.poll nowSecs).ring) origin (v.pos (l.poll nowSecs).cursor) _ _
      rw [ring_poll, cursor_poll l hprune, hpos]
      exact h.poll (v.capacity l.ring)
    · refine hquiet (if_neg hprune) (if_neg hprune) ?_
      show (l.poll nowSecs).ring = _ ∧ (l.poll nowSecs).cursor = _
      rw [poll, if_neg hprune]
      exact ⟨rfl, rfl⟩
  | prune => exact hquiet rfl rfl (tap_step l _ nofun nofun)
  | subscribe req => exact hquiet rfl rfl (tap_step l _ nofun nofun)
  | take i => exact hquiet rfl rfl (tap_step l _ nofun nofun)
  | stream i act => exact hquiet rfl rfl (tap_step l _ nofun nofun)
  | finish i => exact hquiet rfl rfl (tap_step l _ nofun nofun)

variable (decode) in
/-- **What the hub hears in a run.** -/
theorem heard_after (hT : T.Models v) (acts : List LiveAction)
    (h : Heard (v.log l.ring) origin (v.pos l.cursor) heard missed) :
    Heard (v.log (l.after decode acts).ring) origin (v.pos (l.after decode acts).cursor)
      (heard ++ (l.dispatches decode acts).map Dispatch.event)
      (missed + l.missed decode acts) := by
  induction acts generalizing l heard missed with
  | nil =>
    rw [dispatches, List.map_nil, List.append_nil]
    exact h
  | cons act acts ih =>
    have hstep := ih (heard_step decode hT act h)
    rw [List.append_assoc, ← List.map_append, Nat.add_assoc] at hstep
    exact hstep

end Heard

/-! ## One client -/

/-- The events that a call asks for, among those dispatched. -/
def wanted (a : AttachCall) (ds : List (Dispatch C)) : List ObservationEvent :=
  (ds.filter fun d => a.Wants d.event d.nowSecs).map Dispatch.event

/-- Those that found room in the buffer of the subscription, too. -/
def kept (view : C.Chan → BoundedQueue ObservationEvent) (a : AttachCall) (i : ℕ)
    (ds : List (Dispatch C)) : List ObservationEvent :=
  (ds.filter fun d => a.Wants d.event d.nowSecs && d.hub.hasRoom view i).map Dispatch.event

/-- Where there is room for all that a call asks for, nothing is dropped. -/
theorem kept_eq_wanted {view : C.Chan → BoundedQueue ObservationEvent} {a : AttachCall} {i : ℕ}
    {ds : List (Dispatch C)}
    (h : ∀ d ∈ ds, a.Wants d.event d.nowSecs → d.hub.hasRoom view i) :
    kept view a i ds = wanted a ds := by
  unfold kept wanted
  congr 1
  apply List.filter_congr
  intro d hd
  by_cases hwants : a.Wants d.event d.nowSecs
  · simp [hwants, h d hd hwants]
  · simp [hwants]

/-- The system has a stream for each channel of the hub. -/
structure Inv (l : Live T C W) : Prop where
  hub : l.hub.Inv
  length : l.streams.length = l.hub.endpoints.length

/-- A client of the server: the mailbox of its subscription, its stream, and the dispatches since it
subscribed. The stream was given the responses to what was taken from the mailbox, which accepts
events that the client asked for, in order; and a subscription whose task has not ended accepts all
that find room. -/
structure Serves (view : C.Chan → BoundedQueue ObservationEvent)
    (viewW : W.Chan → BoundedQueue (Except Status (QueryResponse α))) (decode : Bytes → Option α)
    (i : ℕ) (a : AttachCall) (l : Live T C W) (ds : List (Dispatch C))
    (m : Mailbox ObservationEvent) (r : Relay W) : Prop where
  attached : Attached view l.hub i a m
  stream : l.streams[i]? = some r
  flows : r.Flows viewW (m.taken.map (item decode))
  ended : m.box.closed = true → r.ended = true
  wanted : m.accepted.Sublist (wanted a ds)
  kept : m.box.closed = false → m.accepted = kept view a i ds
  buffer : m.box.capacity = a.buffer
  pending : r.pending.length ≤ 1

section Serves

variable {view : C.Chan → BoundedQueue ObservationEvent}
  {viewW : W.Chan → BoundedQueue (Except Status (QueryResponse α))} {i : ℕ} {a : AttachCall}
  {l : Live T C W} {ds : List (Dispatch C)} {m : Mailbox ObservationEvent} {r : Relay W}

theorem inv_start : (start : Live T C W).Inv := ⟨inv_new, rfl⟩

theorem Inv.step (h : l.Inv) (act : LiveAction) : (l.step decode act).Inv := by
  cases act with
  | publish event => exact ⟨h.hub, h.length⟩
  | poll nowSecs =>
    show (l.poll nowSecs).Inv
    unfold poll
    split_ifs
    · split
      · rename_i event cursor _
        refine ⟨h.hub.step (.fanOut event nowSecs), ?_⟩
        show l.streams.length =
          (l.hub.subs.foldl (visit event nowSecs) (l.hub.endpoints, false)).1.length
        rw [length_foldl_visit]
        exact h.length
      · exact ⟨h.hub, h.length⟩
    · exact h
  | prune =>
    refine ⟨h.hub.step .prune, h.length.trans ?_⟩
    show _ = l.hub.prune.endpoints.length
    unfold SubscriptionHub.prune
    split_ifs <;> rfl
  | subscribe req =>
    show (l.subscribe req).Inv
    unfold subscribe
    split
    · rename_i chan tx hchan _
      refine ⟨h.hub.step (.attach req.call), ?_⟩
      show (l.streams ++ [_]).length = (l.hub.attach req.call).endpoints.length
      have hattach : C.new req.call.buffer = some chan := hchan
      rw [SubscriptionHub.attach, hattach]
      simp [h.length]
    · exact h
  | take i =>
    show (l.take decode i).Inv
    unfold take
    split
    · split_ifs
      · refine ⟨h.hub.step (.recv i), ?_⟩
        show (l.streams.set i _).length = (l.hub.endpoints.modify i _).length
        rw [List.length_set, List.length_modify, h.length]
      · exact h
    · exact h
  | stream i act =>
    refine ⟨h.hub, ?_⟩
    show (l.streams.modify i _).length = l.hub.endpoints.length
    rw [List.length_modify, h.length]
  | finish i =>
    show (l.finish i).Inv
    unfold finish
    split_ifs
    · refine ⟨h.hub.step (.drop i), ?_⟩
      show _ = (l.hub.endpoints.modify i _).length
      rw [List.length_modify, h.length]
    · exact h

theorem Inv.after (h : l.Inv) (acts : List LiveAction) : (l.after decode acts).Inv := by
  induction acts generalizing l with
  | nil => exact h
  | cons act acts ih => exact ih (h.step act)

theorem wanted_append (a : AttachCall) (ds ds' : List (Dispatch C)) :
    Live.wanted a (ds ++ ds') = Live.wanted a ds ++ Live.wanted a ds' := by
  simp [Live.wanted]

theorem kept_append (a : AttachCall) (i : ℕ) (ds ds' : List (Dispatch C)) :
    Live.kept view a i (ds ++ ds') = Live.kept view a i ds ++ Live.kept view a i ds' := by
  simp [Live.kept]

/-- A dispatch reaches the mailbox of the client. -/
theorem Serves.fanOut (hC : C.Models view) (hi : l.hub.Inv)
    (h : Serves view viewW decode i a l ds m r) (event : ObservationEvent) (nowSecs : ℕ)
    (cursor : T.Cursor) :
    Serves view viewW decode i a { l with cursor, hub := l.hub.fanOut event nowSecs }
      (ds ++ [⟨event, nowSecs, l.hub⟩]) (a.own m (.dispatch event nowSecs)) r := by
  have htaken : (a.own m (.dispatch event nowSecs)).taken = m.taken := by
    show (if a.Wants event nowSecs then m.send event else m).taken = m.taken
    split_ifs <;> rfl
  have hopen : (a.own m (.dispatch event nowSecs)).box.closed = m.box.closed :=
    AttachCall.closed_own_dispatch
  have hbuffer : (a.own m (.dispatch event nowSecs)).box.capacity = m.box.capacity := by
    show (if a.Wants event nowSecs then m.send event else m).box.capacity = _
    split_ifs
    · exact BoundedQueue.capacity_trySend m.box event
    · rfl
  refine ⟨h.attached.fanOut hC hi event nowSecs, h.stream, ?_, fun hclosed => h.ended ?_, ?_,
    fun hclosed => ?_, hbuffer.trans h.buffer, h.pending⟩
  · rw [htaken]
    exact h.flows
  · rw [← hopen, hclosed]
  · rw [wanted_append]
    cases hc : m.box.closed with
    | true =>
      have hsame : a.own m (.dispatch event nowSecs) = m := by
        rw [AttachCall.own, Mailbox.send_of_closed hc, ite_self]
      rw [hsame]
      exact h.wanted.trans (List.sublist_append_left _ _)
    | false =>
      rw [AttachCall.accepted_own_dispatch hc]
      refine h.wanted.append ?_
      simp only [Live.wanted, List.filter_cons, List.filter_nil]
      by_cases hw : a.Wants event nowSecs
      · by_cases hroom : m.box.HasRoom
        · simp [hw, hroom]
        · simp [hw, hroom]
      · simp [hw]
  · rw [hopen] at hclosed
    rw [AttachCall.accepted_own_dispatch hclosed, h.kept hclosed, kept_append]
    simp only [Live.kept, List.filter_cons, List.filter_nil, h.attached.hasRoom_eq]
    by_cases hw : a.Wants event nowSecs
    · by_cases hroom : m.box.HasRoom
      · simp [hw, hroom]
      · simp [hw, hroom]
    · simp [hw]

/-- A task that has not ended keeps its receiver. -/
theorem Serves.closed_eq (h : Serves view viewW decode i a l ds m r) (hended : r.ended = false) :
    m.box.closed = false := by
  by_contra hne
  rw [h.ended (Bool.eq_true_of_not_eq_false hne)] at hended
  cases hended

/-- The task of the client takes an event from the mailbox. -/
theorem Serves.take (hC : C.Models view) (h : Serves view viewW decode i a l ds m r)
    (hended : r.ended = false) (hpending : r.pending = []) :
    ∃ r', r' = r.give (m.box.recv.1.map (item decode)).toList ∧
      Serves view viewW decode i a (l.take decode i) ds m.read r' := by
  obtain ⟨ep, hep, hm⟩ := h.attached.endpoint
  have hclosed := h.closed_eq hended
  have hrecv : (C.recv ep.chan).1 = m.box.recv.1 := by
    rw [(hC.recv ep.chan).1, ← hm]
    rfl
  have htake : l.take decode i = { l with
      hub := l.hub.recv i
      streams := l.streams.set i (r.give (m.box.recv.1.map (item decode)).toList) } := by
    unfold Live.take
    rw [hep, h.stream]
    dsimp only
    rw [if_pos ⟨hended, hpending⟩, hrecv]
  have hread : m.read = ⟨m.box.recv.2, m.taken ++ m.box.recv.1.toList⟩ := by
    rw [Mailbox.read, hclosed]
    rfl
  refine ⟨_, rfl, ?_⟩
  rw [htake]
  refine ⟨?_, ?_, ?_, fun hc => ?_, ?_, fun _ => ?_, ?_, ?_⟩
  · have hattached := h.attached.modify (f := Endpoint.recv) (Endpoint.mailbox_recv hC)
      (by rw [Mailbox.closed_read]; exact id) i
    rwa [if_pos rfl] at hattached
  · rw [List.getElem?_set_self (List.getElem?_eq_some_iff.1 h.stream).1]
  · have hgive := h.flows.give hended (m.box.recv.1.map (item decode)).toList
    rw [hread]
    dsimp only
    rw [List.map_append]
    convert hgive using 2
    cases m.box.recv.1 <;> rfl
  · rw [Mailbox.closed_read, hclosed] at hc
    cases hc
  · rw [Mailbox.accepted_read]
    exact h.wanted
  · rw [Mailbox.accepted_read]
    exact h.kept hclosed
  · rw [hread]
    exact h.buffer
  · rw [Relay.give, hended, hpending]
    cases m.box.recv.1 <;> simp

/-- What happens to others leaves the client as it is. -/
theorem Serves.frame {l' : Live T C W} (h : Serves view viewW decode i a l ds m r)
    (hattached : Attached view l'.hub i a m) (hstream : l'.streams[i]? = some r) :
    Serves view viewW decode i a l' ds m r :=
  ⟨hattached, hstream, h.flows, h.ended, h.wanted, h.kept, h.buffer, h.pending⟩

theorem Serves.take_of_ne (hC : C.Models view) (h : Serves view viewW decode i a l ds m r) {j : ℕ}
    (hj : j ≠ i) : Serves view viewW decode i a (l.take decode j) ds m r := by
  unfold Live.take
  split
  · split_ifs
    · refine h.frame ?_ ?_
      · have hattached := h.attached.modify (f := Endpoint.recv) (Endpoint.mailbox_recv hC)
          (by rw [Mailbox.closed_read]; exact id) j
        rwa [if_neg hj] at hattached
      · exact (List.getElem?_set_ne hj).trans h.stream
    · exact h
  · exact h

/-- A step of the client's stream. -/
theorem Serves.relay (hW : W.Models viewW) (h : Serves view viewW decode i a l ds m r)
    (act : RelayAction) :
    Serves view viewW decode i a (l.step decode (.stream i act)) ds m (r.step act) := by
  refine ⟨h.attached, ?_, h.flows.step hW act, fun hc => Relay.ended_step (h.ended hc) act,
    h.wanted, h.kept, h.buffer, (Relay.length_pending_step act).trans h.pending⟩
  show (l.streams.modify i _)[i]? = _
  rw [List.getElem?_modify_eq, h.stream]
  rfl

/-- The task of the client ends. -/
theorem Serves.finish (hC : C.Models view) (h : Serves view viewW decode i a l ds m r)
    (hended : r.ended = true) :
    Serves view viewW decode i a (l.finish i) ds m.close r := by
  have hfinish : l.finish i = { l with hub := l.hub.dropReceiver i } := by
    rw [Live.finish, h.stream, Option.any_some, if_pos hended]
  rw [hfinish]
  refine ⟨?_, h.stream, h.flows, fun _ => hended, ?_, fun hc => (nomatch hc), h.buffer, h.pending⟩
  · have hattached := h.attached.modify (f := Endpoint.drop) (Endpoint.mailbox_drop hC)
      (by rw [Mailbox.closed_close]; exact fun hclosed => nomatch hclosed) i
    rwa [if_pos rfl] at hattached
  · have hsub : m.close.accepted.Sublist m.accepted := by
      simp [Mailbox.accepted, Mailbox.close, BoundedQueue.close]
    exact hsub.trans h.wanted

theorem Serves.finish_of_ne (hC : C.Models view) (h : Serves view viewW decode i a l ds m r)
    {j : ℕ} (hj : j ≠ i) : Serves view viewW decode i a (l.finish j) ds m r := by
  unfold Live.finish
  split_ifs
  · refine h.frame ?_ h.stream
    have hattached := h.attached.modify (f := Endpoint.drop) (Endpoint.mailbox_drop hC)
      (by rw [Mailbox.closed_close]; exact fun hclosed => nomatch hclosed) j
    rwa [if_neg hj] at hattached
  · exact h

/-- **A step of the server** keeps what is known of the client, whose stream stays open unless it
is the client that goes. -/
theorem Serves.step (hC : C.Models view) (hW : W.Models viewW) (hi : l.Inv)
    (h : Serves view viewW decode i a l ds m r) (act : LiveAction) :
    ∃ m' r', Serves view viewW decode i a (l.step decode act) (ds ++ l.dispatch act) m' r' ∧
      (viewW r'.chan).capacity = (viewW r.chan).capacity ∧
      (act ≠ .stream i .hangUp → (viewW r.chan).closed = false →
        (viewW r'.chan).closed = false) := by
  have hquiet : ∀ m', l.dispatch act = [] →
      Serves view viewW decode i a (l.step decode act) ds m' r →
      ∃ m' r', Serves view viewW decode i a (l.step decode act) (ds ++ l.dispatch act) m' r' ∧
        (viewW r'.chan).capacity = (viewW r.chan).capacity ∧
        (act ≠ .stream i .hangUp → (viewW r.chan).closed = false →
          (viewW r'.chan).closed = false) := by
    intro m' hdispatch hserves
    rw [hdispatch, List.append_nil]
    exact ⟨m', r, hserves, rfl, fun _ hopen => hopen⟩
  cases act with
  | publish event => exact hquiet m rfl (h.frame h.attached h.stream)
  | poll nowSecs =>
    by_cases hprune : l.hub.pruning = 0
    · rcases hrecv : T.recv l.ring l.cursor with ⟨answer, cursor⟩
      have hdispatch : l.dispatch (.poll nowSecs) =
          (answer.message.map fun event => ⟨event, nowSecs, l.hub⟩).toList := by
        rw [dispatch, if_pos hprune, hrecv]
      rw [hdispatch]
      cases answer with
      | ok event =>
        have hpoll : l.step decode (.poll nowSecs) =
            { l with cursor, hub := l.hub.fanOut event nowSecs } := by
          show l.poll nowSecs = _
          rw [poll, if_pos hprune, hrecv]
        rw [hpoll]
        exact ⟨_, r, h.fanOut hC hi.hub event nowSecs cursor, rfl, fun _ hopen => hopen⟩
      | lagged n =>
        have hpoll : l.step decode (.poll nowSecs) = { l with cursor } := by
          show l.poll nowSecs = _
          rw [poll, if_pos hprune, hrecv]
        rw [hpoll]
        refine ⟨m, r, (List.append_nil ds).symm ▸ ?_, rfl, fun _ hopen => hopen⟩
        exact h.frame h.attached h.stream
      | pending =>
        have hpoll : l.step decode (.poll nowSecs) = { l with cursor } := by
          show l.poll nowSecs = _
          rw [poll, if_pos hprune, hrecv]
        rw [hpoll]
        refine ⟨m, r, (List.append_nil ds).symm ▸ ?_, rfl, fun _ hopen => hopen⟩
        exact h.frame h.attached h.stream
    · refine hquiet m (if_neg hprune) ?_
      show Serves _ _ _ _ _ (l.poll nowSecs) _ _ _
      rw [poll, if_neg hprune]
      exact h
  | prune => exact hquiet m rfl (h.frame (h.attached.prune hC) h.stream)
  | subscribe req =>
    refine hquiet m rfl ?_
    show Serves _ _ _ _ _ (l.subscribe req) _ _ _
    unfold subscribe
    split
    · refine h.frame (h.attached.attach req.call) ?_
      exact (List.getElem?_append_left (List.getElem?_eq_some_iff.1 h.stream).1).trans h.stream
    · exact h
  | take j =>
    by_cases hj : j = i
    · subst hj
      by_cases hready : r.ended = false ∧ r.pending = []
      · obtain ⟨r', hr', hserves⟩ := h.take hC hready.1 hready.2
        refine ⟨m.read, r', (List.append_nil ds).symm ▸ hserves, ?_, fun _ hopen => ?_⟩
        · rw [hr', Relay.chan_give]
        · rw [hr', Relay.chan_give]
          exact hopen
      · refine hquiet m rfl ?_
        obtain ⟨ep, hep, -⟩ := h.attached.endpoint
        have htake : l.take decode j = l := by
          rw [Live.take, hep, h.stream]
          exact if_neg hready
        show Serves _ _ _ _ _ (l.take decode j) _ _ _
        rw [htake]
        exact h
    · exact hquiet m rfl (h.take_of_ne hC hj)
  | stream j act =>
    by_cases hj : j = i
    · subst hj
      refine ⟨m, r.step act, (List.append_nil ds).symm ▸ h.relay hW act,
        Relay.capacity_step hW act, fun hact hopen => ?_⟩
      exact Relay.closed_step hW hopen act fun heq => hact (heq ▸ rfl)
    · refine hquiet m rfl (h.frame h.attached ?_)
      exact (List.getElem?_modify_ne _ _ hj).trans h.stream
  | finish j =>
    by_cases hj : j = i
    · subst hj
      cases hended : r.ended with
      | true => exact hquiet m.close rfl (h.finish hC hended)
      | false =>
        refine hquiet m rfl ?_
        have hfinish : l.finish j = l := by simp [Live.finish, h.stream, hended]
        show Serves _ _ _ _ _ (l.finish j) _ _ _
        rw [hfinish]
        exact h
    · exact hquiet m rfl (h.finish_of_ne hC hj)

/-- **A run of the server.** -/
theorem Serves.after (hC : C.Models view) (hW : W.Models viewW) (hi : l.Inv)
    (h : Serves view viewW decode i a l ds m r) (acts : List LiveAction) :
    ∃ m' r', Serves view viewW decode i a (l.after decode acts) (ds ++ l.dispatches decode acts)
        m' r' ∧
      (viewW r'.chan).capacity = (viewW r.chan).capacity ∧
      (.stream i .hangUp ∉ acts → (viewW r.chan).closed = false →
        (viewW r'.chan).closed = false) := by
  induction acts generalizing l ds m r with
  | nil => exact ⟨m, r, (List.append_nil ds).symm ▸ h, rfl, fun _ hopen => hopen⟩
  | cons act acts ih =>
    obtain ⟨m₁, r₁, hstep, hcap₁, hopen₁⟩ := h.step hC hW hi act
    obtain ⟨m', r', hrest, hcap, hopen⟩ := ih (hi.step act) hstep
    rw [List.append_assoc] at hrest
    refine ⟨m', r', hrest, hcap.trans hcap₁, fun hacts ho => ?_⟩
    rw [List.mem_cons, not_or] at hacts
    exact hopen hacts.2 (hopen₁ (Ne.symm hacts.1) ho)

/-- The responses are, in order, to dispatches that the client asked for. -/
theorem Serves.dispatched (h : Serves view viewW decode i a l ds m r) :
    ∃ heard : List (Dispatch C), heard.Sublist (ds.filter fun d => a.Wants d.event d.nowSecs) ∧
      r.taken = (heard.map Dispatch.event).map (item decode) := by
  have htaken : (m.taken.take r.taken.length).Sublist (Live.wanted a ds) := by
    refine (List.take_sublist _ _).trans (List.Sublist.trans ?_ h.wanted)
    exact List.sublist_append_left _ _
  obtain ⟨heard, hsub, heq⟩ := List.sublist_map_iff.1 htaken
  refine ⟨heard, hsub, ?_⟩
  rw [← heq, List.map_take]
  exact List.prefix_iff_eq_take.1 h.flows.taken

variable (decode) in
/-- A client that has subscribed. -/
theorem serves_subscribe (hC : C.Models view) (hW : W.Models viewW) (hi : l.Inv)
    (req : SubscribeRequest) (hchan : (C.new 256).isSome) (htx : (W.new 256).isSome) :
    ∃ r, Serves view viewW decode l.streams.length req.call (l.step decode (.subscribe req)) []
        ⟨.new 256, []⟩ r ∧ viewW r.chan = .new 256 := by
  obtain ⟨chan, hchan⟩ := Option.isSome_iff_exists.1 hchan
  obtain ⟨tx, htx⟩ := Option.isSome_iff_exists.1 htx
  have hstep : l.step decode (.subscribe req) = { l with
      hub := l.hub.attach req.call
      streams := l.streams ++ [⟨[], tx, [], false⟩] } := by
    show l.subscribe req = _
    rw [subscribe, hchan, htx]
  refine ⟨⟨[], tx, [], false⟩, ?_, hW.new htx⟩
  rw [hstep, hi.length]
  refine ⟨attached_attach hC hi.hub (a := req.call) hchan, ?_, ?_, fun hc => (nomatch hc), ?_,
    fun _ => rfl, rfl, Nat.zero_le _⟩
  · rw [← hi.length, List.getElem?_concat_length]
  · exact Relay.flows_start (hW.new htx) []
  · exact List.Sublist.refl _

/-! ## Reading on -/

/-- Rounds in which the task takes an event and tries to send it, and the client reads. -/
def rounds (i : ℕ) : ℕ → List LiveAction
  | 0 => []
  | n + 1 => .take i :: .stream i .push :: .stream i .read :: rounds i n

/-- The task takes an event, when it has none to send and one waits. -/
theorem Serves.take_any (hC : C.Models view) (h : Serves view viewW decode i a l ds m r)
    (hended : r.ended = false) :
    ∃ m' r', Serves view viewW decode i a (l.take decode i) ds m' r' ∧ m'.accepted = m.accepted ∧
      r'.chan = r.chan ∧
      m'.box.queue.length + r'.pending.length = m.box.queue.length + r.pending.length ∧
      (r'.pending = [] → m'.box.queue = []) := by
  by_cases hpending : r.pending = []
  · obtain ⟨r', rfl, hserves⟩ := h.take hC hended hpending
    refine ⟨m.read, _, hserves, Mailbox.accepted_read m, Relay.chan_give r _, ?_⟩
    rw [Relay.give, hended, Mailbox.read, h.closed_eq hended, hpending]
    cases hq : m.box.queue with
    | nil => simp [BoundedQueue.recv, hq]
    | cons event rest => simp [BoundedQueue.recv, hq]
  · obtain ⟨ep, hep, -⟩ := h.attached.endpoint
    have htake : l.take decode i = l := by
      rw [Live.take, hep, h.stream]
      exact if_neg fun hready => hpending hready.2
    rw [htake]
    exact ⟨m, r, h, rfl, rfl, rfl, fun hnil => absurd hnil hpending⟩

/-- **Rounds deliver** all that the subscription has accepted. -/
theorem Serves.rounds (hC : C.Models view) (hW : W.Models viewW)
    (h : Serves view viewW decode i a l ds m r) (hopen : (viewW r.chan).closed = false)
    (hcap : 0 < (viewW r.chan).capacity) {n : ℕ}
    (hn : m.box.queue.length + r.unread viewW ≤ n) :
    ∃ r', (l.after decode (Live.rounds i n)).streams[i]? = some r' ∧
      r'.taken = m.accepted.map (item decode) := by
  induction n generalizing l m r with
  | zero =>
    obtain ⟨-, hcarried⟩ := h.flows.carried hopen
    obtain ⟨hbox, hunread⟩ := Nat.add_eq_zero_iff.1 (Nat.le_zero.1 hn)
    obtain ⟨hpending, hqueue⟩ := Nat.add_eq_zero_iff.1 hunread
    rw [List.length_eq_zero_iff] at hbox hpending hqueue
    refine ⟨r, h.stream, ?_⟩
    rw [hpending, hqueue, List.append_nil, List.append_nil] at hcarried
    rw [hcarried, Mailbox.accepted, hbox, List.append_nil]
  | succ n ih =>
    obtain ⟨m₁, r₁, h₁, haccepted, hchan, hlength, hnone⟩ :=
      h.take_any hC (h.flows.carried hopen).1
    have h₂ := (h₁.relay hW .push).relay hW .read
    rw [← hchan] at hopen hcap
    have hopen₂ : (viewW r₁.push.read.chan).closed = false :=
      Relay.closed_step hW (Relay.closed_step hW hopen .push (by simp)) .read (by simp)
    have hcap₂ : (viewW r₁.push.read.chan).capacity = (viewW r₁.chan).capacity :=
      (Relay.capacity_step hW (r := r₁.push) .read).trans (Relay.capacity_step hW .push)
    have hunread := Relay.unread_round hW hopen hcap
    have hless : m₁.box.queue.length + r₁.push.read.unread viewW ≤ n := by
      have hbefore : r.unread viewW = r.pending.length + (viewW r₁.chan).queue.length := by
        rw [hchan]
        rfl
      have hafter : r₁.unread viewW = r₁.pending.length + (viewW r₁.chan).queue.length := rfl
      rcases Nat.eq_zero_or_pos r₁.pending.length with hzero | hpos
      · rw [List.length_eq_zero_iff] at hzero
        have := congrArg List.length (hnone hzero)
        simp only [List.length_nil] at this
        omega
      · omega
    obtain ⟨r', hstream, htaken⟩ := ih h₂ hopen₂ (hcap₂ ▸ hcap) hless
    exact ⟨r', hstream, htaken.trans (by rw [haccepted])⟩

end Serves

/-! ## Runs -/

/-- The events that are published in a run. -/
def published (acts : List LiveAction) : List ObservationEvent :=
  acts.filterMap fun act => match act with
    | .publish event => some event
    | _ => none

theorem published_append (acts acts' : List LiveAction) :
    published (acts ++ acts') = published acts ++ published acts' :=
  List.filterMap_append

section Runs

variable {v : T.View} {view : C.Chan → BoundedQueue ObservationEvent}
  {viewW : W.Chan → BoundedQueue (Except Status (QueryResponse α))} {l : Live T C W}

theorem log_after (hT : T.Models v) (decode : Bytes → Option α) (l : Live T C W)
    (acts : List LiveAction) :
    v.log (l.after decode acts).ring = v.log l.ring ++ published acts := by
  induction acts generalizing l with
  | nil => exact (List.append_nil _).symm
  | cons act acts ih =>
    refine (ih (l.step decode act)).trans ?_
    have hquiet : (l.step decode act).ring = l.ring → published (act :: acts) = published acts →
        v.log (l.step decode act).ring ++ published acts =
          v.log l.ring ++ published (act :: acts) := by
      intro hring hpublished
      rw [hring, hpublished]
    cases act with
    | publish event =>
      show v.log (T.send l.ring event) ++ published acts = v.log l.ring ++ event :: published acts
      rw [(hT.send l.ring event).1, List.append_assoc, List.singleton_append]
    | poll nowSecs => exact hquiet (ring_poll l nowSecs) rfl
    | prune => exact hquiet rfl rfl
    | subscribe req => exact hquiet (tap_step l (.subscribe req) nofun nofun).1 rfl
    | take i => exact hquiet (tap_step l (.take i) nofun nofun).1 rfl
    | stream i act => exact hquiet rfl rfl
    | finish i => exact hquiet (tap_step l (.finish i) nofun nofun).1 rfl

theorem after_append (decode : Bytes → Option α) (l : Live T C W) (acts acts' : List LiveAction) :
    l.after decode (acts ++ acts') = (l.after decode acts).after decode acts' :=
  List.foldl_append

theorem heard_start (hT : T.Models v) :
    Heard (v.log (start : Live T C W).ring) (v.pos (start : Live T C W).cursor)
      (v.pos (start : Live T C W).cursor) [] 0 := by
  show Heard (v.log (T.new 1024)) (v.pos (T.subscribe (T.new 1024)))
    (v.pos (T.subscribe (T.new 1024))) [] 0
  rw [hT.subscribe]
  exact heard_subscribe _

/-- **What the hub hears from a request on.** -/
theorem heard_of_run (hT : T.Models v) (decode : Bytes → Option α) (before after : List LiveAction)
    (req : SubscribeRequest) :
    let l₀ := (start : Live T C W).after decode before
    Heard (published (before ++ after)) (v.pos l₀.cursor)
      (v.pos (l₀.after decode (.subscribe req :: after)).cursor)
      ((l₀.dispatches decode (.subscribe req :: after)).map Dispatch.event)
      (l₀.missed decode (.subscribe req :: after)) := by
  intro l₀
  have hlog₀ : v.log l₀.ring = published before := by
    rw [log_after hT]
    show v.log (T.new 1024) ++ _ = _
    rw [(hT.new 1024).1, List.nil_append]
  have hlog : v.log (l₀.after decode (.subscribe req :: after)).ring =
      published (before ++ after) := by
    rw [log_after hT, hlog₀, published_append]
    rfl
  have hheard : Heard (v.log l₀.ring) (v.pos l₀.cursor) (v.pos l₀.cursor) [] 0 :=
    ⟨(heard_after decode hT before (heard_start hT)).le, List.nil_sublist _, rfl⟩
  have hafter := heard_after decode hT (.subscribe req :: after) hheard
  rw [List.nil_append, Nat.zero_add] at hafter
  rw [← hlog]
  exact hafter

/-- What waits for a client: 256 events, one that its task holds, and 256 responses at most. -/
theorem Serves.unread_le {i : ℕ} {a : AttachCall} {ds : List (Dispatch C)}
    {m : Mailbox ObservationEvent} {r : Relay W} (h : Serves view viewW decode i a l ds m r)
    (ha : a.buffer = 256) (hcap : (viewW r.chan).capacity = 256) :
    m.box.queue.length + r.unread viewW ≤ 513 := by
  have hbox := m.box.length_le
  have hchan := (viewW r.chan).length_le
  have hpending := h.pending
  rw [h.buffer, ha] at hbox
  rw [hcap] at hchan
  unfold Relay.unread
  omega

/-- A client in a run of the server. -/
theorem serves_of_run (decode : Bytes → Option α) (hC : C.Models view) (hW : W.Models viewW)
    (hi : l.Inv)
    (req : SubscribeRequest) (hchan : (C.new 256).isSome) (htx : (W.new 256).isSome)
    (acts : List LiveAction) :
    ∃ m r, Serves view viewW decode l.streams.length req.call
        (l.after decode (.subscribe req :: acts)) (l.dispatches decode (.subscribe req :: acts))
        m r ∧
      (viewW r.chan).capacity = 256 ∧
      (.stream l.streams.length .hangUp ∉ acts → (viewW r.chan).closed = false) := by
  obtain ⟨r₀, hserves, hnew⟩ := serves_subscribe decode hC hW hi req hchan htx
  obtain ⟨m, r, hrun, hcap, hopen⟩ := hserves.after hC hW (hi.step (.subscribe req)) acts
  refine ⟨m, r, hrun, hcap.trans (by rw [hnew]; rfl), fun hacts => hopen hacts ?_⟩
  rw [hnew]
  rfl

/-- **A live subscription.** For every broadcast channel, bounded channel and stream that behave as
they are documented, every run of the server before a request and after it:

* the hub has heard a part of the events published from where it was in the tap, in order, and of
  the others it was told how many they are;
* the client has read responses to events that the hub heard since the request and that it asked
  for, in the order of their publication and each once;
* unless the client goes, and however many other clients there are, 513 rounds of its task and its
  reads bring it the responses to all these events that found room in its buffer. -/
theorem responses_of_run (hT : T.Models v) (hC : C.Models view) (hW : W.Models viewW)
    (hchan : (C.new 256).isSome) (htx : (W.new 256).isSome) (decode : Bytes → Option α)
    (before after : List LiveAction) (req : SubscribeRequest) :
    let l₀ := (start : Live T C W).after decode before
    let i := l₀.streams.length
    let l := l₀.after decode (.subscribe req :: after)
    let ds := l₀.dispatches decode (.subscribe req :: after)
    Heard (published (before ++ after)) (v.pos l₀.cursor) (v.pos l.cursor)
        (ds.map Dispatch.event) (l₀.missed decode (.subscribe req :: after)) ∧
      ∃ r, l.streams[i]? = some r ∧
        (∃ events : List ObservationEvent, events.Sublist (wanted req.call ds) ∧
          r.taken = events.map (item decode)) ∧
        (.stream i .hangUp ∉ after → ∀ n ≥ 513, ∃ r',
          (l.after decode (rounds i n)).streams[i]? = some r' ∧
            r'.taken = (kept view req.call i ds).map (item decode)) := by
  intro l₀ i l ds
  have hi : l₀.Inv := inv_start.after before
  obtain ⟨m, r, hserves, hcap, hopen⟩ := serves_of_run decode hC hW hi req hchan htx after
  refine ⟨heard_of_run hT decode before after req, r, hserves.stream, ?_, fun hacts n hn => ?_⟩
  · obtain ⟨heard, hsub, htaken⟩ := hserves.dispatched
    exact ⟨heard.map Dispatch.event, hsub.map _, htaken⟩
  · have hr := hopen hacts
    rw [← hserves.kept (hserves.closed_eq (hserves.flows.carried hr).1)]
    exact hserves.rounds hC hW hr (by omega) ((hserves.unread_le rfl hcap).trans hn)

end Runs

/-! ## A client that comes after the first event -/

section Sample

/-- A request for the events around a place. -/
def watchAt (x : ℚ) : SubscribeRequest := ⟨x, 0, 0, 10, 0⟩

/-- An event that the hub has heard. -/
def beforeWatch : List LiveAction := [.publish (eventAt 4), .poll 1]

/-- Two events, of which the client asks for the second. -/
def afterWatch : List LiveAction :=
  [.publish (eventAt 900), .publish (eventAt 6), .poll 1, .poll 2, .take 0]

theorem responses_of_run_watch :
    ∃ r : Relay (waitingQueue (Except Status (QueryResponse Bytes)) 256),
      ((((start : Live (logTap _) (queueChannel _ 256) (waitingQueue _ 256)).after some
        beforeWatch).after some (.subscribe (watchAt 5) :: afterWatch)).after some
          (rounds 0 513)).streams[0]? = some r ∧ r.taken = [item some (eventAt 6)] := by
  obtain ⟨-, -, -, -, h⟩ := responses_of_run models_logTap (models_queueChannel 256)
    (models_waitingQueue 256) (by decide) (by decide) (some : Bytes → Option Bytes) beforeWatch
    afterWatch (watchAt 5)
  obtain ⟨r, hstream, htaken⟩ := h (by decide) 513 (Nat.le_refl _)
  refine ⟨r, hstream, htaken.trans ?_⟩
  decide +kernel

end Sample

end Live

end InterstellarDb
