import InterstellarDb.Server.Live
import InterstellarDb.Store.Commits

/-!
# From a commit to a response

A node runs calls on its store, local writes and those of sync alike, and serves live subscriptions
on the events that the store publishes. The steps of the calls, of the hub, of the forwarding tasks
and of the clients interleave in any way, and every operation of the key-value tree may fail.

* No response is about a row that is not committed, whatever fails (`row_of_event`).
* The rows of a call that commits after a client came are dispatched in order when the hub catches
  up without a gap (`events_of_stored`). Those that the client asks for at that moment reach it if
  its buffer has room (`responses_of_calls`).
-/

namespace InterstellarDb

open Atomic

/-- A node: the calls that run on its store, and its live subscriptions. -/
structure Node {α : Type} (L : LeafDepth) (T : Tap ObservationEvent) (C : Channel ObservationEvent)
    (W : WaitingChannel (Except Status (QueryResponse α))) where
  pool : StorePool L
  live : Live T C W

namespace Node

variable {α : Type} {L : LeafDepth} {T : Tap ObservationEvent} {C : Channel ObservationEvent}
  {W : WaitingChannel (Except Status (QueryResponse α))}

/-- What the subscriptions notice of a step of the store: the events that it publishes. -/
def publishes (c c' : StorePool L) : List LiveAction :=
  (c'.state.events.drop c.state.events.length).map .publish

/-- The node with a new client. -/
def subscribe (decode : Bytes → Option α) (n : Node L T C W) (req : SubscribeRequest) :
    Node L T C W := { n with live := n.live.step decode (.subscribe req) }

section Runs

variable [Sha256]

/-- Runs of a node, with what the subscriptions notice of them. -/
inductive Runs (pol : KvPolicy) (decode : Bytes → Option α) (n : Node L T C W) :
    List LiveAction → Node L T C W → Prop
  | refl : Runs pol decode n [] n
  | store {acts : List LiveAction} {n' : Node L T C W} {pool : StorePool L}
      (run : Runs pol decode n acts n')
      (step : Pool.Step (storeSem L pol) (fun _ => False) (fun _ _ => True) n'.pool pool) :
      Runs pol decode n (acts ++ publishes n'.pool pool)
        ⟨pool, n'.live.after decode (publishes n'.pool pool)⟩
  | live {acts : List LiveAction} {n' : Node L T C W} (run : Runs pol decode n acts n')
      (act : LiveAction) (internal : ∀ event, act ≠ .publish event) :
      Runs pol decode n (acts ++ [act]) { n' with live := n'.live.step decode act }

variable {pol : KvPolicy} {decode : Bytes → Option α} {n n' : Node L T C W}
  {acts : List LiveAction}

omit [Sha256] in
theorem published_publishes {c c' : StorePool L} {es : List ObservationEvent}
    (h : c'.state.events = c.state.events ++ es) : Live.published (publishes c c') = es := by
  rw [publishes, h, List.drop_left, Live.published, List.filterMap_map]
  exact List.filterMap_some

/-- **The parts of a run**: the calls run on the store, and the subscriptions are published what
the store sends. -/
theorem Runs.parts (h : Runs pol decode n acts n') :
    StorePool.Runs pol n.pool n'.pool ∧ n'.live = n.live.after decode acts ∧
      n'.pool.state.events = n.pool.state.events ++ Live.published acts := by
  induction h with
  | refl => exact ⟨.refl, rfl, (List.append_nil _).symm⟩
  | @store acts n' pool _ hstep ih =>
    obtain ⟨hpool, hlive, hevents⟩ := ih
    obtain ⟨sent, htap, -⟩ := sent_of_runs n.pool.state.indexer [] (.single hstep)
    have hnew := congrArg Prod.fst htap
    refine ⟨hpool.tail hstep, ?_, ?_⟩
    · rw [Live.after_append, ← hlive]
    · rw [Live.published_append, published_publishes hnew, ← List.append_assoc, ← hevents]
      exact hnew
  | @live acts n' _ act hact ih =>
    obtain ⟨hpool, hlive, hevents⟩ := ih
    refine ⟨hpool, ?_, ?_⟩
    · rw [Live.after_append, ← hlive]
      rfl
    · have hnone : Live.published [act] = [] := by
        cases act with
        | publish event => exact absurd rfl (hact event)
        | _ => rfl
      rw [Live.published_append, hnone, List.append_nil]
      exact hevents

/-! ## Rows and responses -/

section Clients

variable {v : T.View} {view : C.Chan → BoundedQueue ObservationEvent}
  {viewW : W.Chan → BoundedQueue (Except Status (QueryResponse α))}
  {s : SpatioTemporalStore L} {calls : List StoreCall} {n₁ n₂ : Node L T C W}
  {before after : List LiveAction}

/-- The node before the first call and the first client. -/
def begin (s : SpatioTemporalStore L) (calls : List StoreCall) : Node L T C W :=
  ⟨.begin s calls, .start⟩

omit [Sha256] in
theorem mem_newEvents {s : SpatioTemporalStore L} {rows : List Row} {event : ObservationEvent} :
    event ∈ s.newEvents rows ↔ s.receivers ≠ 0 ∧
      ∃ row ∈ rows, SpatioTemporalStore.observationEvent s.indexer row = event := by
  unfold SpatioTemporalStore.newEvents
  split_ifs with h
  · simp [h]
  · simp [h]

/-- An event is sent for a row, which a call has published after its commit. -/
theorem row_of_event {c : StorePool L} (hevents : s.events = [])
    (h : StorePool.Runs pol (.begin s calls) c) {event : ObservationEvent}
    (hevent : event ∈ c.state.events) :
    ∃ row j, row ∈ rowsAt s.indexer calls j ∧ (account s.indexer calls c j).committed = true ∧
      SpatioTemporalStore.observationEvent s.indexer row = event := by
  obtain ⟨sent, htap, haccount⟩ := sent_of_runs s.indexer calls h
  have hsent : c.state.events = s.events ++ s.newEvents (sent.map Prod.snd) :=
    congrArg Prod.fst htap
  rw [hsent, hevents, List.nil_append, mem_newEvents] at hevent
  obtain ⟨-, row, hrow, heq⟩ := hevent
  obtain ⟨⟨j, x⟩, hmem, rfl⟩ := List.mem_map.1 hrow
  have hpublished : x ∈ (account s.indexer calls c j).published := by
    rw [haccount]
    exact List.mem_append_right _ (List.mem_map.2 ⟨_, List.mem_filter.2 ⟨hmem, by simp⟩, rfl⟩)
  have hkept := (threadsKeep_of_runs h).accountKept j
  refine ⟨x, j, hkept.inOrder.subset hpublished, ?_, heq⟩
  apply Bool.eq_true_of_not_eq_false
  intro hfalse
  rw [hkept.afterCommit hfalse] at hpublished
  cases hpublished

/-- The events of a call that has committed and ended meanwhile are sent meanwhile, in order. -/
theorem events_of_stored {c c' : StorePool L} (hreceivers : s.receivers ≠ 0)
    (h : StorePool.Runs pol (.begin s calls) c) (h' : StorePool.Runs pol c c') {j : ℕ}
    {t : Thread storeSig (Except String Bool)} (ht : c'.threads[j]? = some t)
    (hret : t.prog = .ret (.ok true))
    (hbefore : (account s.indexer calls c j).committed = false) :
    ∃ es, c'.state.events = c.state.events ++ es ∧
      ((rowsAt s.indexer calls j).map (SpatioTemporalStore.observationEvent s.indexer)).Sublist
        es := by
  obtain ⟨_, htap, -⟩ := sent_of_runs s.indexer calls h
  obtain ⟨sent, htap', haccount⟩ := sent_of_runs s.indexer calls h'
  have hix : c.state.indexer = s.indexer := congrArg (fun v => v.2.2) htap
  have hr : c.state.receivers = s.receivers := congrArg (fun v => v.2.1) htap
  refine ⟨_, congrArg Prod.fst htap', ?_⟩
  unfold SpatioTemporalStore.newEvents
  rw [hix, hr, if_neg hreceivers]
  apply List.Sublist.map
  have hended := ((threadsKeep_of_runs (h.trans h')).accountKept j).ended t _ ht hret
  rcases hended with ⟨-, hclosed⟩ | ⟨hne, -⟩
  · have hj := haccount j
    rw [hclosed, ((threadsKeep_of_runs h).accountKept j).afterCommit hbefore,
      List.nil_append] at hj
    have hrows : rowsAt s.indexer calls j = (sent.filter fun y => y.1 = j).map Prod.snd := hj
    rw [hrows]
    exact List.filter_sublist.map Prod.snd
  · exact absurd rfl hne

/-- What is known of a client in a run of the node. -/
theorem client_of_runs (hT : T.Models v) (hC : C.Models view) (hW : W.Models viewW)
    (hchan : (C.new 256).isSome) (htx : (W.new 256).isSome) (hevents : s.events = [])
    (h₁ : Runs pol decode (begin s calls) before n₁) (req : SubscribeRequest)
    (h₂ : Runs pol decode (n₁.subscribe decode req) after n₂) :
    let ds := n₁.live.dispatches decode (.subscribe req :: after)
    Heard n₂.pool.state.events (v.pos n₁.live.cursor) (v.pos n₂.live.cursor)
        (ds.map SubscriptionHub.Dispatch.event) (n₁.live.missed decode (.subscribe req :: after)) ∧
      v.pos n₁.live.cursor ≤ n₁.pool.state.events.length ∧
      ∃ m r, Live.Serves view viewW decode n₁.live.streams.length req.call n₂.live ds m r ∧
        (viewW r.chan).capacity = 256 ∧
        (.stream n₁.live.streams.length .hangUp ∉ after → (viewW r.chan).closed = false) := by
  obtain ⟨-, hlive₁, hevents₁⟩ := h₁.parts
  obtain ⟨-, hlive₂, hevents₂⟩ := h₂.parts
  have hstart : (begin s calls : Node L T C W).pool.state.events = [] := hevents
  have hnone : v.log (Live.start : Live T C W).ring = [] := (hT.new 1024).1
  rw [hstart, List.nil_append] at hevents₁
  have hlog : n₂.pool.state.events = Live.published (before ++ after) := by
    rw [Live.published_append, ← hevents₁]
    exact hevents₂
  have hlog₁ : v.log n₁.live.ring = n₁.pool.state.events := by
    rw [hlive₁, Live.log_after hT, hevents₁]
    show v.log (Live.start : Live T C W).ring ++ _ = _
    rw [hnone, List.nil_append]
  have hrun : n₂.live = n₁.live.after decode (.subscribe req :: after) := hlive₂
  have hi : n₁.live.Inv := hlive₁ ▸ Live.inv_start.after before
  refine ⟨?_, ?_, ?_⟩
  · rw [hlog, hrun, hlive₁]
    exact Live.heard_of_run hT decode before after req
  · rw [← hlog₁, hlive₁]
    exact (Live.heard_after decode hT before (Live.heard_start hT)).le
  · rw [hrun]
    exact Live.serves_of_run decode hC hW hi req hchan htx after

/-- **From a commit to a response.** Calls run on the store of a node and clients come, read and go,
in any interleaving, and every operation of the key-value tree may fail.

* A client reads only responses to events that the hub has dispatched since it came, in their order
  and each once, of rows that some call has committed, and that it asked for at the instant of the
  dispatch.
* When the hub has heard all that was published since a client came, and all of it that the client
  asked for found room in its buffer, then the rows of every call that committed since it came and
  ended well were dispatched, in order and each once. Unless the client goes, 513 rounds bring it
  the responses for those that it asked for at the instant of their dispatch. -/
theorem responses_of_calls (hT : T.Models v) (hC : C.Models view) (hW : W.Models viewW)
    (hchan : (C.new 256).isSome) (htx : (W.new 256).isSome) (hevents : s.events = [])
    (hreceivers : s.receivers ≠ 0) (h₁ : Runs pol decode (begin s calls) before n₁)
    (req : SubscribeRequest) (h₂ : Runs pol decode (n₁.subscribe decode req) after n₂) :
    let i := n₁.live.streams.length
    let ds := n₁.live.dispatches decode (.subscribe req :: after)
    let event := SpatioTemporalStore.observationEvent s.indexer
    (∃ r, n₂.live.streams[i]? = some r ∧ ∃ heard : List (SubscriptionHub.Dispatch C),
      heard.Sublist ds ∧
      r.taken = (heard.map SubscriptionHub.Dispatch.event).map (Live.item decode) ∧
      ∀ d ∈ heard, req.call.Wants d.event d.nowSecs ∧ ∃ row j, d.event = event row ∧
        row ∈ rowsAt s.indexer calls j ∧ (account s.indexer calls n₂.pool j).committed = true) ∧
    (n₁.live.missed decode (.subscribe req :: after) = 0 →
      v.pos n₂.live.cursor = n₂.pool.state.events.length →
      (∀ d ∈ ds, req.call.Wants d.event d.nowSecs → d.hub.hasRoom view i) →
      .stream i .hangUp ∉ after → ∀ k ≥ 513,
      ∃ r, (n₂.live.after decode (Live.rounds i k)).streams[i]? = some r ∧
        ∀ j t, n₂.pool.threads[j]? = some t → t.prog = .ret (.ok true) →
          (account s.indexer calls n₁.pool j).committed = false →
          ∃ stored : List (SubscriptionHub.Dispatch C), stored.Sublist ds ∧
            stored.map SubscriptionHub.Dispatch.event = (rowsAt s.indexer calls j).map event ∧
            (((stored.filter fun d => req.call.Wants d.event d.nowSecs).map
              SubscriptionHub.Dispatch.event).map (Live.item decode)).Sublist r.taken) := by
  intro i ds event
  obtain ⟨hheard, hpos, m, r, hserves, hcap, hopen⟩ :=
    client_of_runs hT hC hW hchan htx hevents h₁ req h₂
  have hpool : StorePool.Runs pol (.begin s calls) n₁.pool := h₁.parts.1
  have hpool' : StorePool.Runs pol n₁.pool n₂.pool := h₂.parts.1
  refine ⟨?_, fun hmissed hcaught hroom hacts k hk => ?_⟩
  · obtain ⟨heard, hsub, htaken⟩ := hserves.dispatched
    refine ⟨r, hserves.stream, heard, hsub.trans List.filter_sublist, htaken, fun d hd => ?_⟩
    obtain ⟨hmem, hwants⟩ := List.mem_filter.1 (hsub.subset hd)
    have hlogged := hheard.sublist.subset (List.mem_map_of_mem hmem)
    have hsent := (List.take_sublist _ _).subset ((List.drop_sublist _ _).subset hlogged)
    obtain ⟨row, j, hrow, hcommitted, heq⟩ := row_of_event hevents (hpool.trans hpool') hsent
    exact ⟨of_decide_eq_true hwants, row, j, heq.symm, hrow, hcommitted⟩
  · have hr := hopen hacts
    obtain ⟨r', hstream, htaken⟩ :=
      hserves.rounds hC hW hr (by omega) ((hserves.unread_le rfl hcap).trans hk)
    rw [hserves.kept (hserves.closed_eq (hserves.flows.carried hr).1),
      Live.kept_eq_wanted hroom] at htaken
    refine ⟨r', hstream, fun j t ht hret hbefore => ?_⟩
    obtain ⟨es, hes, hrows⟩ := events_of_stored hreceivers hpool hpool' ht hret hbefore
    rw [hmissed] at hheard
    have hall := hheard.eq_of_missed
    rw [hcaught, List.take_length, hes, List.drop_append_of_le_length hpos] at hall
    have hdispatched := hrows.trans (List.sublist_append_right
      (n₁.pool.state.events.drop (v.pos n₁.live.cursor)) es)
    rw [← hall] at hdispatched
    obtain ⟨stored, hsub, heq⟩ := List.sublist_map_iff.1 hdispatched
    refine ⟨stored, hsub, heq.symm, ?_⟩
    rw [htaken]
    exact ((hsub.filter _).map _).map _

end Clients

/-! ## A row that is stored while a client watches -/

/-- A run of the calls alone. -/
theorem runs_of_pool (n : Node L T C W) {pool : StorePool L}
    (h : StorePool.Runs pol n.pool pool) :
    Runs pol decode n (publishes n.pool pool)
      ⟨pool, n.live.after decode (publishes n.pool pool)⟩ := by
  induction h with
  | refl =>
    have hnone : publishes n.pool n.pool = [] := by simp [publishes]
    rw [hnone]
    exact .refl
  | @tail c c' hrun hstep ih =>
    have hnext := ih.store hstep
    obtain ⟨sent, htap, -⟩ := sent_of_runs n.pool.state.indexer [] hrun
    obtain ⟨sent', htap', -⟩ := sent_of_runs n.pool.state.indexer [] (.single hstep)
    have hc : c.state.events = _ := congrArg Prod.fst htap
    have hc' : c'.state.events = _ := congrArg Prod.fst htap'
    have hall : publishes n.pool c ++ publishes c c' = publishes n.pool c' := by
      unfold publishes
      rw [hc', hc, List.append_assoc, List.drop_left, List.drop_left, ← List.append_assoc,
        List.drop_left, List.map_append]
    dsimp only at hnext
    rw [← Live.after_append, hall] at hnext
    exact hnext

end Runs

section Sample

local instance nodeSha : Sha256 := sampleDigests

/-- A store with a change tap. -/
def tappedStore : SpatioTemporalStore merkleLeafDepth := { sampleStore with receivers := 1 }

/-- A request for the events around the lower corner of the range, at most 5 seconds old. -/
def watchCorner : SubscribeRequest := ⟨-1000, -1000, -1000, 10, 5⟩

/-- A node whose only call stores a row at that corner. -/
def cornerNode : Node merkleLeafDepth (logTap _) (queueChannel _ 256)
    (waitingQueue (Except Status (QueryResponse Bytes)) 256) :=
  begin tappedStore [storeCorner 0 [0x61]]

/-- The event of the row. -/
def cornerEvent : ObservationEvent :=
  SpatioTemporalStore.observationEvent testIndexer (.ofFields 0 0 0, [0x61])

theorem responses_of_calls_corner :
    ∃ acts n, Runs .reliable some (cornerNode.subscribe some watchCorner) acts n ∧
      ∃ r, (n.live.after some (Live.rounds 0 513)).streams[0]? = some r ∧
        Live.item some cornerEvent ∈ r.taken := by
  have hrun : ((Pool.schedule StoreOp.run (fun _ _ => true) [0, 0, 0, 0, 0, 0, 0]
      cornerNode.pool).bind fun c => some (c.state.events, c.threads[0]?.any endedWell)) =
        some ([cornerEvent], true) := by
    decide +kernel
  obtain ⟨c, hc, hfacts⟩ := Option.bind_eq_some_iff.1 hrun
  obtain ⟨hevents, hended⟩ := Prod.mk.inj (Option.some.inj hfacts)
  obtain ⟨t, ht, hret⟩ := (Option.any_eq_true _ _).1 hended
  have hpool : StorePool.Runs .reliable cornerNode.pool c :=
    Pool.runs_of_schedule (fun _ _ _ _ => sem_reliable) (fun _ _ _ => trivial) hc
  have hacts : publishes cornerNode.pool c = [.publish cornerEvent] := by
    have hnone : cornerNode.pool.state.events = [] := rfl
    rw [publishes, hevents, hnone]
    rfl
  have hstored : Runs .reliable some (cornerNode.subscribe some watchCorner)
      (publishes cornerNode.pool c) _ := runs_of_pool _ hpool
  rw [hacts] at hstored
  have hpolled := hstored.live (.poll 1) nofun
  have hcaught : (((cornerNode.subscribe some watchCorner).live.after some
      (publishes cornerNode.pool c)).step some (.poll 1)).cursor = c.state.events.length := by
    rw [hacts, hevents]
    rfl
  have hall : ∀ d ∈ cornerNode.live.dispatches some
      (.subscribe watchCorner :: ([.publish cornerEvent] ++ [.poll 1])),
      watchCorner.call.Wants d.event d.nowSecs := by decide +kernel
  obtain ⟨-, h⟩ := responses_of_calls models_logTap (models_queueChannel 256)
    (models_waitingQueue 256) (by decide) (by decide) rfl (by decide) .refl watchCorner hpolled
  obtain ⟨r, hstream, hread⟩ := h (by decide +kernel) hcaught (by decide +kernel)
    (by decide) 513 (Nat.le_refl _)
  refine ⟨_, _, hpolled, r, hstream, ?_⟩
  obtain ⟨stored, hsub, hrows, hresponses⟩ := hread 0 t ht (endedWell_iff.1 hret) rfl
  have hwants : (stored.filter fun d => watchCorner.call.Wants d.event d.nowSecs) = stored :=
    List.filter_eq_self.2 fun d hd => decide_eq_true (hall d (hsub.subset hd))
  rw [hwants, hrows] at hresponses
  apply hresponses.subset
  apply List.mem_map_of_mem
  exact List.mem_map.2 ⟨(.ofFields 0 0 0, [0x61]), by decide +kernel, rfl⟩

end Sample

end Node

end InterstellarDb
