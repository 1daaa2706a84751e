import InterstellarDb.Hub.SubscriptionHub

/-!
# What a subscriber receives

One subscription on its own is a mailbox: a dispatch sends it the event when the call asks for it
(`AttachCall.Wants`), and its subscriber reads and goes (`AttachCall.own`). In every run of the hub
each subscription is such a mailbox, driven by the steps that concern it (`Attached.after`),
whichever other subscriptions come and go.

* A subscription whose receiver is there is not pruned, and accepts the events that it asks for and
  that find room, in the order of their dispatch (`Attached.accepted_after`).
* Two runs with the same steps for a subscription give it the same mailbox
  (`subscriptions_kept_and_independent`).
-/

namespace InterstellarDb

/-! ## One subscription on its own -/

/-- The call asks for the event, at the time of its dispatch. -/
structure AttachCall.Wants (a : AttachCall) (event : ObservationEvent) (nowSecs : ℕ) : Prop where
  /-- There is no limit, or the event is not older than it; a future event is fresh. -/
  fresh : a.maxAgeSecs = 0 ∨ nowSecs ≤ event.timestampSecs + a.maxAgeSecs
  inSphere : (event.x - a.centerX) ^ 2 + (event.y - a.centerY) ^ 2 + (event.z - a.centerZ) ^ 2 ≤
    a.radius ^ 2

theorem AttachCall.wants_iff {a : AttachCall} {event : ObservationEvent} {nowSecs : ℕ} :
    a.Wants event nowSecs ↔
      (a.maxAgeSecs = 0 ∨ nowSecs ≤ event.timestampSecs + a.maxAgeSecs) ∧
        (event.x - a.centerX) ^ 2 + (event.y - a.centerY) ^ 2 + (event.z - a.centerZ) ^ 2 ≤
          a.radius ^ 2 :=
  ⟨fun h => ⟨h.fresh, h.inSphere⟩, fun h => ⟨h.1, h.2⟩⟩

instance (a : AttachCall) (event : ObservationEvent) (nowSecs : ℕ) :
    Decidable (a.Wants event nowSecs) :=
  decidable_of_iff _ AttachCall.wants_iff.symm

/-- What happens to one subscription. -/
inductive OwnAction where
  | dispatch (event : ObservationEvent) (nowSecs : ℕ)
  | read
  | drop
  deriving DecidableEq

/-- The part of a step that concerns the subscription on the channel. -/
def HubAction.own (i : ℕ) : HubAction → Option OwnAction
  | .fanOut event nowSecs => some (.dispatch event nowSecs)
  | .recv j => if j = i then some .read else none
  | .drop j => if j = i then some .drop else none
  | _ => none

/-- A subscription on its own. -/
def AttachCall.own (a : AttachCall) (m : Mailbox ObservationEvent) :
    OwnAction → Mailbox ObservationEvent
  | .dispatch event nowSecs => if a.Wants event nowSecs then m.send event else m
  | .read => m.read
  | .drop => m.close

namespace AttachCall

variable {a : AttachCall} {m : Mailbox ObservationEvent} {event : ObservationEvent} {nowSecs : ℕ}

@[simp] theorem closed_own_dispatch :
    (a.own m (.dispatch event nowSecs)).box.closed = m.box.closed := by
  dsimp only [own]
  split_ifs
  · exact Mailbox.closed_send m event
  · rfl

/-- An open mailbox accepts a dispatched event that the call asks for and that finds room. -/
theorem accepted_own_dispatch (hopen : m.box.closed = false) :
    (a.own m (.dispatch event nowSecs)).accepted =
      m.accepted ++ if a.Wants event nowSecs ∧ m.box.HasRoom then [event] else [] := by
  dsimp only [own]
  by_cases hw : a.Wants event nowSecs
  · rw [if_pos hw, Mailbox.accepted_send hopen]
    simp only [hw, true_and]
  · rw [if_neg hw, if_neg fun hboth => hw hboth.1, List.append_nil]

end AttachCall

variable {C : Channel ObservationEvent} {view : C.Chan → BoundedQueue ObservationEvent}

/-- The mailbox of a channel. -/
def Endpoint.mailbox (view : C.Chan → BoundedQueue ObservationEvent) (ep : Endpoint C) :
    Mailbox ObservationEvent := ⟨view ep.chan, ep.taken⟩

theorem Endpoint.mailbox_recv (hC : C.Models view) (ep : Endpoint C) :
    ep.recv.mailbox view = (ep.mailbox view).read := by
  have hclosed : (ep.mailbox view).box.closed = C.isClosed ep.chan := (hC.isClosed ep.chan).symm
  obtain ⟨hfst, hsnd⟩ := hC.recv ep.chan
  rw [Endpoint.recv, Mailbox.read, hclosed]
  split_ifs
  · rfl
  · rw [Endpoint.mailbox, hsnd, hfst]
    rfl

theorem Endpoint.mailbox_drop (hC : C.Models view) (ep : Endpoint C) :
    ep.drop.mailbox view = (ep.mailbox view).close := by
  rw [Endpoint.drop, Endpoint.mailbox, hC.drop]
  rfl

namespace SubscriptionHub

/-- The mailbox of the subscription on the channel. -/
def mailbox (view : C.Chan → BoundedQueue ObservationEvent) (h : SubscriptionHub C) (i : ℕ) :
    Option (Mailbox ObservationEvent) := h.endpoints[i]?.map (Endpoint.mailbox view)

/-- **The tests of a visit are those of the call.** -/
theorem mailbox_deliver (hC : C.Models view) (a : AttachCall) (i : ℕ) (event : ObservationEvent)
    (nowSecs : ℕ) (ep : Endpoint C) :
    (deliver (a.subscription i) event nowSecs ep).mailbox view =
      a.own (ep.mailbox view) (.dispatch event nowSecs) := by
  have hstale : a.maxAgeSecs > 0 ∧ nowSecs - event.timestampSecs > a.maxAgeSecs ↔
      ¬ (a.maxAgeSecs = 0 ∨ nowSecs ≤ event.timestampSecs + a.maxAgeSecs) := by omega
  rw [deliver, AttachCall.own]
  simp only [AttachCall.subscription, ← pow_two, hstale, AttachCall.wants_iff]
  by_cases hclosed : C.isClosed ep.chan = true
  · have hbox : (ep.mailbox view).box.closed = true := by
      rw [← hclosed, hC.isClosed]
      rfl
    rw [if_pos hclosed, Mailbox.send_of_closed hbox, ite_self]
  rw [if_neg hclosed]
  by_cases hfresh : a.maxAgeSecs = 0 ∨ nowSecs ≤ event.timestampSecs + a.maxAgeSecs
  · rw [if_neg (not_not.2 hfresh)]
    simp only [hfresh, true_and]
    split_ifs
    · rw [Endpoint.mailbox, hC.trySend]
      rfl
    · rfl
  · rw [if_pos hfresh, if_neg fun hw => hfresh hw.1]

/-! ## The invariant -/

/-- Each subscription has a channel of its own. -/
structure Inv (h : SubscriptionHub C) : Prop where
  tx_lt : ∀ sub ∈ h.subs, sub.tx < h.endpoints.length
  nodup : (h.subs.map (·.tx)).Nodup

theorem inv_new : (new : SubscriptionHub C).Inv :=
  ⟨fun _ hsub => absurd hsub List.not_mem_nil, List.nodup_nil⟩

theorem Inv.step {h : SubscriptionHub C} (hi : h.Inv) (act : HubAction) : (h.step act).Inv := by
  cases act with
  | attach a =>
    dsimp only [SubscriptionHub.step, attach]
    cases C.new a.buffer with
    | none => exact hi
    | some chan =>
      refine ⟨fun sub hsub => ?_, ?_⟩
      · rw [List.length_append, List.length_singleton]
        rcases List.mem_append.1 hsub with hsub | hsub
        · exact (hi.tx_lt sub hsub).trans (Nat.lt_succ_self _)
        · rw [List.mem_singleton.1 hsub]
          exact Nat.lt_succ_self _
      · rw [List.map_append, List.nodup_append']
        refine ⟨hi.nodup, List.nodup_singleton _, fun tx htx hnew => ?_⟩
        obtain ⟨sub, hsub, rfl⟩ := List.mem_map.1 htx
        exact absurd (List.mem_singleton.1 hnew) (hi.tx_lt sub hsub).ne
  | fanOut event nowSecs =>
    have hlength : (h.fanOut event nowSecs).endpoints.length = h.endpoints.length :=
      length_foldl_visit h.subs
    exact ⟨fun sub hsub => (hi.tx_lt sub hsub).trans_eq hlength.symm, hi.nodup⟩
  | prune =>
    dsimp only [SubscriptionHub.step, prune]
    split_ifs
    · exact hi
    · exact ⟨fun sub hsub => hi.tx_lt sub (List.mem_of_mem_filter hsub),
        hi.nodup.sublist (List.filter_sublist.map _)⟩
  | recv i =>
    exact ⟨fun sub hsub => (hi.tx_lt sub hsub).trans_eq (List.length_modify _ _ _).symm, hi.nodup⟩
  | drop i =>
    exact ⟨fun sub hsub => (hi.tx_lt sub hsub).trans_eq (List.length_modify _ _ _).symm, hi.nodup⟩

theorem Inv.after {h : SubscriptionHub C} (hi : h.Inv) (acts : List HubAction) :
    (h.after acts).Inv := by
  induction acts generalizing h with
  | nil => exact hi
  | cons act acts ih => exact ih (hi.step act)

/-- The call attached the subscription on the channel `i`, which has the mailbox. While its receiver
is there, the subscription is registered. -/
structure Attached (view : C.Chan → BoundedQueue ObservationEvent) (h : SubscriptionHub C) (i : ℕ)
    (a : AttachCall) (m : Mailbox ObservationEvent) : Prop where
  mailbox : h.mailbox view i = some m
  unique : ∀ sub ∈ h.subs, sub.tx = i → sub = a.subscription i
  listed : m.box.closed = false → a.subscription i ∈ h.subs

section Attached

variable {h : SubscriptionHub C} {i : ℕ} {a : AttachCall} {m : Mailbox ObservationEvent}

theorem Attached.endpoint (hatt : Attached view h i a m) :
    ∃ ep, h.endpoints[i]? = some ep ∧ ep.mailbox view = m :=
  Option.map_eq_some_iff.1 hatt.mailbox

theorem Attached.lt (hatt : Attached view h i a m) : i < h.endpoints.length := by
  obtain ⟨ep, hep, -⟩ := hatt.endpoint
  exact (List.getElem?_eq_some_iff.1 hep).1

/-- The sender sees whether the receiver is there. -/
theorem Attached.isClosed_eq (hC : C.Models view) (hatt : Attached view h i a m) :
    isClosed h.endpoints i = m.box.closed := by
  obtain ⟨ep, hep, rfl⟩ := hatt.endpoint
  rw [isClosed, hep, Option.any_some, hC.isClosed]
  rfl

theorem Attached.attach (hatt : Attached view h i a m) (a' : AttachCall) :
    Attached view (h.attach a') i a m := by
  dsimp only [SubscriptionHub.attach]
  cases C.new a'.buffer with
  | none => exact hatt
  | some chan =>
    refine ⟨?_, fun sub hsub htx => ?_, fun hopen => List.mem_append_left _ (hatt.listed hopen)⟩
    · rw [SubscriptionHub.mailbox, List.getElem?_append_left hatt.lt]
      exact hatt.mailbox
    · rcases List.mem_append.1 hsub with hsub | hsub
      · exact hatt.unique sub hsub htx
      · rw [List.mem_singleton.1 hsub] at htx
        exact absurd htx hatt.lt.ne'

theorem Attached.fanOut (hC : C.Models view) (hi : h.Inv) (hatt : Attached view h i a m)
    (event : ObservationEvent) (nowSecs : ℕ) :
    Attached view (h.fanOut event nowSecs) i a (a.own m (.dispatch event nowSecs)) := by
  refine ⟨?_, hatt.unique, fun hopen => hatt.listed (AttachCall.closed_own_dispatch ▸ hopen)⟩
  show ((h.subs.foldl (visit event nowSecs) (h.endpoints, false)).1[i]?).map _ = _
  by_cases hmem : a.subscription i ∈ h.subs
  · obtain ⟨ep, hep, rfl⟩ := hatt.endpoint
    have hfold : (h.subs.foldl (visit event nowSecs) (h.endpoints, false)).1[i]? =
        h.endpoints[i]?.map (deliver (a.subscription i) event nowSecs) :=
      foldl_visit_of_mem hi.nodup hmem
    rw [hfold, hep, Option.map_some, Option.map_some, mailbox_deliver hC]
  · -- the receiver is gone and the subscription pruned
    have hgone : m.box.closed = true := Bool.eq_true_of_not_eq_false (mt hatt.listed hmem)
    have hother : ∀ sub ∈ h.subs, sub.tx ≠ i :=
      fun sub hsub htx => hmem (hatt.unique sub hsub htx ▸ hsub)
    rw [foldl_visit_of_not_mem hother, AttachCall.own, Mailbox.send_of_closed hgone, ite_self]
    exact hatt.mailbox

theorem Attached.prune (hC : C.Models view) (hatt : Attached view h i a m) :
    Attached view h.prune i a m := by
  unfold SubscriptionHub.prune
  split_ifs
  · exact hatt
  · refine ⟨hatt.mailbox, fun sub hsub => hatt.unique sub (List.mem_of_mem_filter hsub),
      fun hopen => List.mem_filter.2 ⟨hatt.listed hopen, ?_⟩⟩
    show (!isClosed h.endpoints i) = true
    rw [hatt.isClosed_eq hC, hopen]
    rfl

/-- A step of a subscriber changes its own channel only. -/
theorem Attached.modify (hatt : Attached view h i a m) {f : Endpoint C → Endpoint C}
    {g : Mailbox ObservationEvent → Mailbox ObservationEvent}
    (hfg : ∀ ep, (f ep).mailbox view = g (ep.mailbox view))
    (hopen : (g m).box.closed = false → m.box.closed = false) (j : ℕ) :
    Attached view { h with endpoints := h.endpoints.modify j f } i a
      (if j = i then g m else m) := by
  refine ⟨?_, hatt.unique, fun hnew => hatt.listed ?_⟩
  · obtain ⟨ep, hep, rfl⟩ := hatt.endpoint
    show ((h.endpoints.modify j f)[i]?).map _ = _
    split_ifs with hj
    · subst hj
      rw [List.getElem?_modify_eq, hep]
      exact congrArg some (hfg ep)
    · rw [List.getElem?_modify_ne _ _ hj, hep]
      rfl
  · split_ifs at hnew
    · exact hopen hnew
    · exact hnew

/-- **One step of the hub** is the subscription's own step on its mailbox, or none. -/
theorem Attached.step (hC : C.Models view) (hi : h.Inv) (hatt : Attached view h i a m)
    (act : HubAction) : Attached view (h.step act) i a ((act.own i).elim m (a.own m)) := by
  have hown : ∀ (j : ℕ) (o : OwnAction),
      (if j = i then some o else none).elim m (a.own m) = if j = i then a.own m o else m := by
    intro j o
    split_ifs
    · rfl
    · rfl
  cases act with
  | attach a' => exact hatt.attach a'
  | fanOut event nowSecs => exact hatt.fanOut hC hi event nowSecs
  | prune => exact hatt.prune hC
  | recv j =>
    have hopen : m.read.box.closed = false → m.box.closed = false := by
      rw [Mailbox.closed_read]
      exact id
    exact (hown j .read).symm ▸ hatt.modify (Endpoint.mailbox_recv hC) hopen j
  | drop j =>
    have hopen : m.close.box.closed = false → m.box.closed = false := by
      rw [Mailbox.closed_close]
      exact fun hclosed => nomatch hclosed
    exact (hown j .drop).symm ▸ hatt.modify (Endpoint.mailbox_drop hC) hopen j

/-- **Every run of the hub** drives the mailbox with the steps that concern the subscription. -/
theorem Attached.after (hC : C.Models view) (hi : h.Inv) (hatt : Attached view h i a m)
    (acts : List HubAction) :
    Attached view (h.after acts) i a ((acts.filterMap (HubAction.own i)).foldl a.own m) := by
  induction acts generalizing h m with
  | nil => exact hatt
  | cons act acts ih =>
    have hstep := ih (hi.step act) (hatt.step hC hi act)
    cases hact : act.own i with
    | none =>
      rw [hact] at hstep
      rw [List.filterMap_cons_none hact]
      exact hstep
    | some o =>
      rw [hact] at hstep
      rw [List.filterMap_cons_some hact]
      exact hstep

/-- A call that returns has attached an empty mailbox on the next channel. -/
theorem attached_attach (hC : C.Models view) (hi : h.Inv) {chan : C.Chan}
    (hnew : C.new a.buffer = some chan) :
    Attached view (h.step (.attach a)) h.endpoints.length a ⟨.new a.buffer, []⟩ := by
  have hstep : h.step (.attach a) =
      { h with
        subs := h.subs ++ [a.subscription h.endpoints.length]
        endpoints := h.endpoints ++ [⟨chan, []⟩] } := by
    rw [SubscriptionHub.step, SubscriptionHub.attach, hnew]
  rw [hstep]
  refine ⟨?_, fun sub hsub htx => ?_, fun _ => List.mem_append_right _ (List.mem_singleton_self _)⟩
  · rw [SubscriptionHub.mailbox, List.getElem?_concat_length, Option.map_some, Endpoint.mailbox,
      hC.new hnew]
  · rcases List.mem_append.1 hsub with hsub | hsub
    · exact absurd htx (hi.tx_lt sub hsub).ne
    · exact List.mem_singleton.1 hsub

end Attached

/-! ## What is accepted -/

/-- A dispatch of a run, with the hub that it met. -/
structure Dispatch (C : Channel ObservationEvent) where
  event : ObservationEvent
  nowSecs : ℕ
  hub : SubscriptionHub C

/-- The dispatches of a run, in order. -/
def dispatches (h : SubscriptionHub C) : List HubAction → List (Dispatch C)
  | [] => []
  | .fanOut event nowSecs :: acts =>
    ⟨event, nowSecs, h⟩ :: dispatches (h.step (.fanOut event nowSecs)) acts
  | act :: acts => dispatches (h.step act) acts

/-- The buffer of the channel has room. -/
def hasRoom (view : C.Chan → BoundedQueue ObservationEvent) (h : SubscriptionHub C) (i : ℕ) :
    Bool := (h.mailbox view i).any fun m => m.box.HasRoom

/-- The events of a run that the call asks for and that found room in the buffer of its channel. -/
def delivered (view : C.Chan → BoundedQueue ObservationEvent) (a : AttachCall) (i : ℕ)
    (h : SubscriptionHub C) (acts : List HubAction) : List ObservationEvent :=
  ((h.dispatches acts).filter fun d => a.Wants d.event d.nowSecs && d.hub.hasRoom view i).map
    Dispatch.event

section Runs

variable {h : SubscriptionHub C} {i : ℕ} {a : AttachCall} {m : Mailbox ObservationEvent}

theorem Attached.hasRoom_eq (hatt : Attached view h i a m) :
    h.hasRoom view i = decide m.box.HasRoom := by
  rw [hasRoom, hatt.mailbox, Option.any_some]

/-- A fan-out delivers its event when the call asks for it and it finds room. -/
theorem Attached.delivered_fanOut (hatt : Attached view h i a m) (event : ObservationEvent)
    (nowSecs : ℕ) (acts : List HubAction) :
    delivered view a i h (.fanOut event nowSecs :: acts) =
      (if a.Wants event nowSecs ∧ m.box.HasRoom then [event] else []) ++
        delivered view a i (h.step (.fanOut event nowSecs)) acts := by
  rw [delivered, dispatches, List.filter_cons]
  simp only [hatt.hasRoom_eq, Bool.and_eq_true, decide_eq_true_eq]
  split_ifs
  · rfl
  · rfl

/-- **What a subscription accepts.** While its receiver is there, it accepts the events that the
call asks for and that find room, in the order of their dispatch. -/
theorem Attached.accepted_after (hC : C.Models view) (hi : h.Inv) (hatt : Attached view h i a m)
    (hopen : m.box.closed = false) {acts : List HubAction} (hdrop : .drop i ∉ acts) :
    ((acts.filterMap (HubAction.own i)).foldl a.own m).box.closed = false ∧
      ((acts.filterMap (HubAction.own i)).foldl a.own m).accepted =
        m.accepted ++ delivered view a i h acts := by
  induction acts generalizing h m with
  | nil => exact ⟨hopen, (List.append_nil _).symm⟩
  | cons act acts ih =>
    have hrest : .drop i ∉ acts := fun hmem => hdrop (List.mem_cons_of_mem _ hmem)
    have hatt' := hatt.step hC hi act
    have hi' := hi.step act
    cases act with
    | attach a' => exact ih hi' hatt' hopen hrest
    | prune => exact ih hi' hatt' hopen hrest
    | fanOut event nowSecs =>
      obtain ⟨hclosed, haccepted⟩ :=
        ih hi' hatt' (AttachCall.closed_own_dispatch.trans hopen) hrest
      refine ⟨hclosed, haccepted.trans ?_⟩
      change (a.own m (.dispatch event nowSecs)).accepted ++ _ = _
      rw [AttachCall.accepted_own_dispatch hopen, hatt.delivered_fanOut, List.append_assoc]
    | recv j =>
      by_cases hj : j = i
      · have hown : HubAction.own i (.recv j) = some .read := if_pos hj
        rw [hown] at hatt'
        rw [List.filterMap_cons_some hown, List.foldl_cons]
        obtain ⟨hclosed, haccepted⟩ := ih hi' hatt' ((Mailbox.closed_read m).trans hopen) hrest
        exact ⟨hclosed, haccepted.trans (congrArg (· ++ _) (Mailbox.accepted_read m))⟩
      · have hown : HubAction.own i (.recv j) = none := if_neg hj
        rw [hown] at hatt'
        rw [List.filterMap_cons_none hown]
        exact ih hi' hatt' hopen hrest
    | drop j =>
      have hj : j ≠ i := fun heq => hdrop (heq ▸ List.mem_cons_self ..)
      have hown : HubAction.own i (.drop j) = none := if_neg hj
      rw [hown] at hatt'
      rw [List.filterMap_cons_none hown]
      exact ih hi' hatt' hopen hrest

/-- A call that returns attaches a mailbox, which the steps after it drive. -/
theorem attached_after (hC : C.Models view) (hnew : (C.new a.buffer).isSome)
    (before after : List HubAction) :
    Attached view ((new : SubscriptionHub C).after (before ++ .attach a :: after))
      ((new : SubscriptionHub C).after before).endpoints.length a
      ((after.filterMap (HubAction.own
        ((new : SubscriptionHub C).after before).endpoints.length)).foldl a.own
          ⟨.new a.buffer, []⟩) := by
  obtain ⟨chan, hchan⟩ := Option.isSome_iff_exists.1 hnew
  have hi : ((new : SubscriptionHub C).after before).Inv := inv_new.after before
  rw [after_append, after_cons]
  exact (attached_attach hC hi hchan).after hC (hi.step _) after

end Runs

/-- **Subscriptions are kept and independent.** For every channel that behaves as a bounded queue,
every call to `attach` that returns, and every run before and after it:

* unless the receiver is dropped, the subscription is registered, on a channel of its own, and what
  its receiver has read, followed by what waits in the buffer, is exactly the events that were
  dispatched after the call, that it asks for and that found room, in the order of their dispatch;
* another run with the same call, in which the same events are dispatched and the same steps of the
  subscriber follow it, gives it the same mailbox, whichever other subscriptions there are. -/
theorem subscriptions_kept_and_independent (hC : C.Models view) (a : AttachCall)
    (hnew : (C.new a.buffer).isSome) :
    (∀ before after : List HubAction,
      let i := ((new : SubscriptionHub C).after before).endpoints.length
      let h := (new : SubscriptionHub C).after (before ++ .attach a :: after)
      .drop i ∉ after →
        a.subscription i ∈ h.subs ∧ (h.subs.map (·.tx)).Nodup ∧
          ∃ m, h.mailbox view i = some m ∧
            m.taken ++ m.box.queue =
              delivered view a i ((new : SubscriptionHub C).after (before ++ [.attach a])) after) ∧
    (∀ before before' after after' : List HubAction,
      let i := ((new : SubscriptionHub C).after before).endpoints.length
      let i' := ((new : SubscriptionHub C).after before').endpoints.length
      after.filterMap (HubAction.own i) = after'.filterMap (HubAction.own i') →
        ((new : SubscriptionHub C).after (before ++ .attach a :: after)).mailbox view i =
          ((new : SubscriptionHub C).after (before' ++ .attach a :: after')).mailbox view i') := by
  refine ⟨?_, ?_⟩
  · intro before after i h hdrop
    have hatt := attached_after hC hnew before after
    obtain ⟨chan, hchan⟩ := Option.isSome_iff_exists.1 hnew
    have hi : ((new : SubscriptionHub C).after before).Inv := inv_new.after before
    obtain ⟨hopen, haccepted⟩ :=
      (attached_attach hC hi hchan).accepted_after hC (hi.step _) rfl hdrop
    refine ⟨hatt.listed hopen, (inv_new.after _).nodup, _, hatt.mailbox, ?_⟩
    rw [after_append]
    exact haccepted
  · intro before before' after after' i i' hsame
    rw [(attached_after hC hnew before after).mailbox,
      (attached_after hC hnew before' after').mailbox, hsame]

/-! ## A subscription between a fan-out and its prune -/

/-- An event at a place, one second after the start of the epoch 0. -/
def eventAt (x : ℚ) : ObservationEvent := ⟨.ofFields 0 0 nanosPerSec, x, 0, 0, 1, 0, []⟩

/-- A call for the events around a place, with a buffer of one event. -/
def attachAt (x : ℚ) : AttachCall := ⟨x, 0, 0, 10, 0, 1⟩

/-- A dispatch meets a receiver that is gone. -/
def beforePrune : List HubAction := [.attach (attachAt 900), .drop 0, .fanOut (eventAt 5) 1]

/-- It prunes, and two more events are dispatched, of which one finds room. -/
def afterAttach : List HubAction :=
  [.prune, .fanOut (eventAt 6) 1, .fanOut (eventAt 7) 1, .recv 1]

theorem subscriptions_kept_and_independent_sample :
    ∃ m, ((new : SubscriptionHub (queueChannel _ 16)).after
      (beforePrune ++ .attach (attachAt 5) :: afterAttach)).mailbox id 1 = some m ∧
        m.taken ++ m.box.queue = [eventAt 6] := by
  obtain ⟨-, -, m, hm, haccepted⟩ := (subscriptions_kept_and_independent (models_queueChannel 16)
    (attachAt 5) (by decide +kernel)).1 beforePrune afterAttach (by decide +kernel)
  refine ⟨m, hm, haccepted.trans ?_⟩
  decide +kernel

end SubscriptionHub

end InterstellarDb
