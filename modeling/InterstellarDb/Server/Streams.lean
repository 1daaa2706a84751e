import InterstellarDb.Foundations.Relay
import InterstellarDb.Store.Scan
import InterstellarDb.Sync.AnyPeer
import InterstellarDb.Sync.Peers

/-!
# Streamed answers

`query_window` and `fetch` check their request, answer with a stream, and leave the work to a task:
it scans the store once, when it gets to it, and then sends the answers one after another through a
channel of 64 places. Meanwhile the store changes and the client reads, or goes.

So a client reads a first part of what the store held at one moment of the run, never a mixture of
two moments, and all of it when it reads on (`Streaming.snapshot`). A peer that fetches a leaf cell
gets the rows that the hash of the cell was folded from at that moment
(`SyncService.fetch_snapshot`).
-/

namespace InterstellarDb

/-! ## Scanning once -/

/-- A task of the server: the state that it will scan, whether it has, and the relay to the
client. -/
structure Streaming {ε : Type} (W : WaitingChannel ε) (σ : Type) where
  store : σ
  scanned : Bool
  relay : Relay W

/-- What happens while an answer is streamed: the store changes, the task scans it, or the relay
goes on. A scan fails with a message, or does not. -/
inductive StreamAction (σ : Type) where
  | write (store : σ)
  | scan (failure : Option String)
  | relay (act : RelayAction)

namespace Streaming

variable {ε σ : Type} {W : WaitingChannel ε} (items : σ → Option String → List ε)

/-- The task before it scans. -/
def start (store : σ) (c : W.Chan) : Streaming W σ := ⟨store, false, ⟨[], c, [], false⟩⟩

/-- What a step does; `items` are the answers to send after a scan. -/
def step (x : Streaming W σ) : StreamAction σ → Streaming W σ
  | .write store => { x with store }
  | .scan failure =>
    if x.scanned then x
    else { x with scanned := true, relay := x.relay.give (items x.store failure) }
  | .relay act => { x with relay := x.relay.step act }

/-- The task after steps, in order. -/
def after (x : Streaming W σ) (acts : List (StreamAction σ)) : Streaming W σ :=
  acts.foldl (step items) x

variable {items} {view : W.Chan → BoundedQueue ε} {x : Streaming W σ}

/-- The states of the store in a run. -/
def seen (x : Streaming W σ) (acts : List (StreamAction σ)) : List σ :=
  x.store :: acts.filterMap fun act => match act with
    | .write store => some store
    | _ => none

/-- The relay has nothing to send before the scan, and after it the answers of one of the stores. -/
structure Serves (items : σ → Option String → List ε) (view : W.Chan → BoundedQueue ε)
    (stores : List σ) (x : Streaming W σ) : Prop where
  store : x.store ∈ stores
  before : x.scanned = false →
    x.relay.pending = [] ∧ x.relay.ended = false ∧ x.relay.Flows view []
  after : x.scanned = true → ∃ s ∈ stores, ∃ failure, x.relay.Flows view (items s failure)

theorem Serves.mono {stores stores' : List σ} (h : Serves items view stores x)
    (hsub : ∀ s ∈ stores, s ∈ stores') : Serves items view stores' x where
  store := hsub _ h.store
  before := h.before
  after := fun hs => by
    obtain ⟨s, hmem, hrest⟩ := h.after hs
    exact ⟨s, hsub s hmem, hrest⟩

/-- A relay without items to send has none after a step either. -/
theorem idle_step {r : Relay W} (hpending : r.pending = []) (hended : r.ended = false)
    (act : RelayAction) : (r.step act).pending = [] ∧ (r.step act).ended = false := by
  cases act with
  | push =>
    have hpush : r.push = r := by
      unfold Relay.push
      rw [hpending]
    show r.push.pending = [] ∧ r.push.ended = false
    rw [hpush]
    exact ⟨hpending, hended⟩
  | read =>
    show r.read.pending = [] ∧ r.read.ended = false
    unfold Relay.read
    split_ifs
    · exact ⟨hpending, hended⟩
    · exact ⟨hpending, hended⟩
  | hangUp => exact ⟨hpending, hended⟩

theorem Serves.step (hW : W.Models view) {stores : List σ} (h : Serves items view stores x)
    (act : StreamAction σ) (hstore : ∀ s, act = .write s → s ∈ stores) :
    Serves items view stores (x.step items act) := by
  cases act with
  | write s => exact ⟨hstore s rfl, h.before, h.after⟩
  | scan failure =>
    unfold Streaming.step
    dsimp only
    split_ifs with hs
    · exact h
    · obtain ⟨-, hended, hflows⟩ := h.before (Bool.eq_false_of_not_eq_true hs)
      exact ⟨h.store, fun hfalse => (nomatch hfalse),
        fun _ => ⟨x.store, h.store, failure, hflows.give hended _⟩⟩
  | relay act =>
    refine ⟨h.store, fun hs => ?_, fun hs => ?_⟩
    · obtain ⟨hpending, hended, hflows⟩ := h.before hs
      obtain ⟨hpending', hended'⟩ := idle_step hpending hended act
      exact ⟨hpending', hended', hflows.step hW act⟩
    · obtain ⟨s, hmem, failure, hflows⟩ := h.after hs
      exact ⟨s, hmem, failure, hflows.step hW act⟩

theorem Serves.run (hW : W.Models view) {stores : List σ} (h : Serves items view stores x)
    (acts : List (StreamAction σ)) (hstores : ∀ s, .write s ∈ acts → s ∈ stores) :
    Serves items view stores (x.after items acts) := by
  induction acts generalizing x with
  | nil => exact h
  | cons act acts ih =>
    refine ih (h.step hW act fun s hs => hstores s ?_) fun s hs =>
      hstores s (List.mem_cons_of_mem _ hs)
    rw [hs]
    exact List.mem_cons_self ..

variable {c : W.Chan} {n : ℕ}

theorem serves_start (hc : view c = .new n) (s₀ : σ) :
    Serves items view [s₀] (start s₀ c) where
  store := List.mem_singleton_self _
  before := fun _ => ⟨rfl, rfl, Relay.flows_start hc []⟩
  after := fun hs => nomatch hs

variable (items) in
/-- A step that is not the client's going leaves the channel open. -/
theorem closed_step (hW : W.Models view) (h : (view x.relay.chan).closed = false)
    {act : StreamAction σ} (hact : act ≠ .relay .hangUp) :
    (view (x.step items act).relay.chan).closed = false ∧
      (view (x.step items act).relay.chan).capacity = (view x.relay.chan).capacity := by
  cases act with
  | write s => exact ⟨h, rfl⟩
  | scan failure =>
    unfold Streaming.step
    dsimp only
    split_ifs
    · exact ⟨h, rfl⟩
    · rw [Relay.chan_give]
      exact ⟨h, rfl⟩
  | relay act =>
    have hact' : act ≠ .hangUp := fun heq => hact (heq ▸ rfl)
    exact ⟨Relay.closed_step hW h act hact', Relay.capacity_step hW act⟩

variable (items) in
theorem closed_after (hW : W.Models view) (h : (view x.relay.chan).closed = false)
    {acts : List (StreamAction σ)} (hacts : .relay .hangUp ∉ acts) :
    (view (x.after items acts).relay.chan).closed = false ∧
      (view (x.after items acts).relay.chan).capacity = (view x.relay.chan).capacity := by
  induction acts generalizing x with
  | nil => exact ⟨h, rfl⟩
  | cons act acts ih =>
    have hact : act ≠ .relay .hangUp := fun heq => hacts (heq ▸ List.mem_cons_self ..)
    obtain ⟨hopen, hcap⟩ := closed_step items hW h hact
    obtain ⟨hopen', hcap'⟩ := ih hopen fun hmem => hacts (List.mem_cons_of_mem _ hmem)
    exact ⟨hopen', hcap'.trans hcap⟩

variable (items) in
/-- **A streamed answer is a snapshot.** The client has read nothing before the scan, and after it
a first part of the answers of one store of the run. Unless the client goes it reads all of them by
reading on. -/
theorem snapshot (hW : W.Models view) (hc : view c = .new n) (hn : 0 < n) (s₀ : σ)
    (acts : List (StreamAction σ)) :
    let x := (start s₀ c : Streaming W σ).after items acts
    (x.scanned = false → x.relay.taken = []) ∧
      (x.scanned = true → ∃ s ∈ seen (start s₀ c : Streaming W σ) acts, ∃ failure,
        x.relay.taken <+: items s failure ∧ (.relay .hangUp ∉ acts → ∀ m ≥ x.relay.unread view,
          (x.relay.after (Relay.rounds m)).taken = items s failure)) := by
  intro x
  have hserves : Serves items view (seen (start s₀ c : Streaming W σ) acts) x := by
    refine Serves.run hW ((serves_start hc s₀).mono ?_) acts fun s hs => ?_
    · intro s hs
      rw [List.mem_singleton.1 hs]
      exact List.mem_cons_self ..
    · exact List.mem_cons_of_mem _ (List.mem_filterMap.2 ⟨_, hs, rfl⟩)
  refine ⟨fun hs => ?_, fun hs => ?_⟩
  · exact List.prefix_nil.1 (hserves.before hs).2.2.taken
  · obtain ⟨s, hmem, failure, hflows⟩ := hserves.after hs
    refine ⟨s, hmem, failure, hflows.taken, fun hup m hm => ?_⟩
    have hopen : (view (start s₀ c : Streaming W σ).relay.chan).closed = false := by
      show (view c).closed = false
      rw [hc]
      rfl
    obtain ⟨hopen', hcap⟩ := closed_after items hW hopen hup
    refine hflows.taken_rounds hW hopen' ?_ hm
    rw [hcap]
    show 0 < (view c).capacity
    rw [hc]
    exact hn

end Streaming

/-! ## Responses -/

/-- `QueryResponse`; the payload is the decoded message. -/
structure QueryResponse (α : Type) where
  key : Bytes
  x : ℚ
  y : ℚ
  z : ℚ
  timestampSecs : ℕ
  timestampNanos : ℕ
  payload : Option α
  deriving DecidableEq

/-- `QueryWindowRequest`. -/
structure QueryWindowRequest where
  centerX : ℚ
  centerY : ℚ
  centerZ : ℚ
  radius : ℚ
  startSecs : ℕ
  endSecs : ℕ
  deriving DecidableEq

namespace Svc

variable {α : Type} (decode : Bytes → Option α)

/-- The payload of a response: what `Any::decode` makes of the stored bytes, if there are any. -/
def responsePayload (payload : Bytes) : Option α :=
  if payload = [] then none else decode payload

/-- `obs_to_response`. -/
def obsToResponse (o : Observation) : QueryResponse α :=
  ⟨o.key, o.x, o.y, o.z, o.timestampSecs, o.timestampNanos, responsePayload decode o.payload⟩

/-- `event_to_response`. -/
def eventToResponse (e : ObservationEvent) : QueryResponse α :=
  ⟨e.key.bytes, e.x, e.y, e.z, e.timestampSecs, e.timestampNanos, responsePayload decode e.payload⟩

variable {L : LeafDepth}

/-- `Svc::query_window`: what the task sends after it has scanned the store, when the request is
accepted. -/
def queryWindow (req : QueryWindowRequest) :
    Except Status
      (SpatioTemporalStore L → Option String → List (Except Status (QueryResponse α))) :=
  if req.startSecs > req.endSecs then
    .error (.invalidArgument "start_secs must be <= end_secs")
  else
    .ok fun store failure =>
      match failure with
      | some err => [.error (.internal err)]
      | none =>
        (InterstellarDb.queryWindow store req.centerX req.centerY req.centerZ req.radius
          req.startSecs req.endSecs).map fun o => .ok (obsToResponse decode o)

end Svc

/-- The task of `SyncService::fetch`: what it sends after it has scanned the store, when the request
is accepted. -/
def SyncService.fetchItems {L : LeafDepth} (startKey endKey : Bytes) :
    Except Status (SpatioTemporalStore L → Option String → List (Except Status SyncRow)) :=
  match Key.tryFrom startKey with
  | none => .error (.invalidArgument "start_key must be 20 bytes")
  | some start =>
    match Key.tryFrom endKey with
    | none => .error (.invalidArgument "end_key must be 20 bytes")
    | some stop =>
      if compare start.bytes stop.bytes = .gt then
        .error (.invalidArgument "start_key must be ≤ end_key")
      else
        .ok fun store failure =>
          match failure with
          | some err => [.error (.internal err)]
          | none => (scanRange store.tree start stop).map fun r => .ok ⟨r.1.bytes, r.2⟩

section Answers

variable {L : LeafDepth} {α : Type}

namespace SyncService

variable {startKey endKey : Bytes}

/-- **When `fetch` rejects a request**: its keys are not two keys in order. -/
theorem fetchItems_eq_error_iff :
    (∃ status, fetchItems (L := L) startKey endKey = .error status) ↔
      ∀ start stop : Key, startKey = start.bytes → endKey = stop.bytes →
        compare start.bytes stop.bytes = .gt := by
  unfold fetchItems
  cases hstart : Key.tryFrom startKey with
  | none =>
    refine iff_of_true ⟨_, rfl⟩ fun start stop hs => ?_
    rw [hs, Key.tryFrom_bytes] at hstart
    cases hstart
  | some start =>
    obtain rfl := Key.tryFrom_eq_some.1 hstart
    cases hstop : Key.tryFrom endKey with
    | none =>
      refine iff_of_true ⟨_, rfl⟩ fun _ stop _ hs => ?_
      rw [hs, Key.tryFrom_bytes] at hstop
      cases hstop
    | some stop =>
      obtain rfl := Key.tryFrom_eq_some.1 hstop
      dsimp only
      split_ifs with horder
      · refine iff_of_true ⟨_, rfl⟩ fun start' stop' hs hs' => ?_
        rw [← hs, ← hs']
        exact horder
      · exact iff_of_false (fun ⟨_, h⟩ => nomatch h) fun h => horder (h start stop rfl rfl)

/-- **The stream of `fetch`** brings the rows that `fetch` answers on one store, or breaks off. -/
theorem streams_fetchItems
    {items : SpatioTemporalStore L → Option String → List (Except Status SyncRow)}
    (h : fetchItems startKey endKey = .ok items) (s : SpatioTemporalStore L)
    (failure : Option String) :
    ∃ rows, fetch s startKey endKey = .ok rows ∧ Streams rows (items s failure) := by
  unfold fetchItems at h
  unfold fetch
  cases hstart : Key.tryFrom startKey with
  | none =>
    rw [hstart] at h
    cases h
  | some start =>
    cases hstop : Key.tryFrom endKey with
    | none =>
      rw [hstart, hstop] at h
      cases h
    | some stop =>
      rw [hstart, hstop] at h
      dsimp only at h ⊢
      split_ifs at h with horder
      obtain rfl := Except.ok.inj h
      rw [if_neg horder]
      refine ⟨_, rfl, ?_⟩
      cases failure with
      | none => exact .inl (by simp)
      | some err => exact .inr ⟨0, .internal err, by simp⟩

/-- A stream of rows brings these rows. -/
theorem goodRows_map (rows : List Row) :
    goodRows ((rows.map fun r => (⟨r.1.bytes, r.2⟩ : SyncRow)).map .ok) = rows := by
  induction rows with
  | nil => rfl
  | cons r rows ih =>
    have hrow : rowOfItem (.ok ⟨r.1.bytes, r.2⟩) = some r := by simp [rowOfItem]
    rw [List.map_cons, List.map_cons, goodRows, hrow]
    exact congrArg (r :: ·) ih

/-- **The rows of a leaf cell fold to its hash** in the forest of the store that served them. -/
theorem sum_fetch_leaf [Sha256] {s : SpatioTemporalStore L} (hs : Hashes s.merkle s.rows)
    {e : Epoch} {d p : ℕ} (hd : L.Valid d) (hp : IsPrefix d p) {rows : List SyncRow}
    (h : fetch s (leafKeyRange e p d).1.bytes (leafKeyRange e p d).2.bytes = .ok rows) :
    ((goodRows (rows.map .ok)).map rowDigest).sum = s.merkle.nodeHash e d p := by
  have hnodup : s.rows.toList.Nodup := s.rows.nodup_toList
  have hscan := (leafScan_leafKeyRange s.tree e hp).fold L hd s.rows.toList hnodup fun r =>
    Finset.mem_toList
  have hfold := (foldOf_insertAll (L := L) hnodup).hashes e d p hd hp
  rw [Finset.toList_toFinset] at hfold
  rw [fetch_leaf s e hp] at h
  obtain rfl := Except.ok.inj h
  rw [goodRows_map, hscan, hfold, hs e d p hd hp]

/-- **A streamed fetch delivers one moment.** A request is rejected when its keys are not two keys
in order, only then, and before the store is touched. Of an accepted one, whatever is written while
it is streamed, the peer reads a first part of what `fetch` answers on one of the stores of the run,
in which the stream may break off, and all of it by reading on. When the range is that of a leaf cell
and the forest has the hashes of the rows at that moment, a stream that does not break off brings
rows that fold to the hash of the cell. -/
theorem fetch_snapshot [Sha256] {W : WaitingChannel (Except Status SyncRow)}
    {view : W.Chan → BoundedQueue (Except Status SyncRow)} (hW : W.Models view) {c : W.Chan}
    (hc : W.new 64 = some c) (startKey endKey : Bytes) (s₀ : SpatioTemporalStore L)
    (acts : List (StreamAction (SpatioTemporalStore L))) :
    ((∃ status, fetchItems (L := L) startKey endKey = .error status) ↔
      ∀ start stop : Key, startKey = start.bytes → endKey = stop.bytes →
        compare start.bytes stop.bytes = .gt) ∧
    ∀ items, fetchItems startKey endKey = .ok items →
      let x := (Streaming.start s₀ c : Streaming W _).after items acts
      (x.scanned = false → x.relay.taken = []) ∧
        (x.scanned = true → ∃ s ∈ Streaming.seen (Streaming.start s₀ c : Streaming W _) acts,
          ∃ rows answer, fetch s startKey endKey = .ok rows ∧ Streams rows answer ∧
            x.relay.taken <+: answer ∧
            (∀ e d p, L.Valid d → IsPrefix d p → startKey = (leafKeyRange e p d).1.bytes →
              endKey = (leafKeyRange e p d).2.bytes → Hashes s.merkle s.rows →
              answer = rows.map .ok →
              ((goodRows answer).map rowDigest).sum = s.merkle.nodeHash e d p) ∧
            (.relay .hangUp ∉ acts → ∀ m ≥ x.relay.unread view,
              (x.relay.after (Relay.rounds m)).taken = answer)) := by
  refine ⟨fetchItems_eq_error_iff, ?_⟩
  intro items hitems x
  obtain ⟨hbefore, hafter⟩ := Streaming.snapshot items hW (hW.new hc) (by norm_num) s₀ acts
  refine ⟨hbefore, fun hs => ?_⟩
  obtain ⟨s, hmem, failure, htaken, hall⟩ := hafter hs
  obtain ⟨rows, hrows, hstreams⟩ := streams_fetchItems hitems s failure
  refine ⟨s, hmem, rows, _, hrows, hstreams, htaken, ?_, hall⟩
  rintro e d p hd hp rfl rfl hhashes hanswer
  rw [hanswer]
  exact sum_fetch_leaf hhashes hd hp hrows

end SyncService

/-- The answers of an accepted query. -/
theorem Svc.queryWindow_eq_ok {decode : Bytes → Option α} {req : QueryWindowRequest}
    {items : SpatioTemporalStore L → Option String → List (Except Status (QueryResponse α))}
    (h : Svc.queryWindow decode req = .ok items) (s : SpatioTemporalStore L)
    (failure : Option String) :
    items s failure = (InterstellarDb.queryWindow s req.centerX req.centerY req.centerZ req.radius
        req.startSecs req.endSecs).map (fun o => .ok (obsToResponse decode o)) ∨
      ∃ err, items s failure = [.error (.internal err)] := by
  unfold Svc.queryWindow at h
  split_ifs at h with hwindow
  obtain rfl := Except.ok.inj h
  cases failure with
  | none => exact .inl rfl
  | some err => exact .inr ⟨err, rfl⟩

/-- A response stands for a row of the store that matches the query. -/
theorem mem_responses {decode : Bytes → Option α} {s : SpatioTemporalStore L}
    {cx cy cz radius : ℚ} {startSecs endSecs : ℕ} {response : QueryResponse α}
    (h : (.ok response : Except Status (QueryResponse α)) ∈
      (InterstellarDb.queryWindow s cx cy cz radius startSecs endSecs).map fun o =>
        .ok (Svc.obsToResponse decode o)) :
    ∃ r ∈ s.rows, Matches s.indexer cx cy cz radius startSecs endSecs r.1 ∧
      response = Svc.obsToResponse decode (observation s.indexer r) := by
  obtain ⟨o, ho, heq⟩ := List.mem_map.1 h
  obtain rfl := Except.ok.inj heq
  obtain ⟨r, hr, -, hm, rfl⟩ := mem_collect.1 ho
  exact ⟨r, hr, hm, rfl⟩

/-- **A streamed query answers from one moment.** A query is rejected when its window ends before it
starts, only then, and before the store is touched. Of an accepted one, whatever is written while
its answer is streamed, the client reads a first part of what `query_window` answers on one of the
stores of the run, or of a single error, and all of it by reading on. So each response is an
observation that was stored at that moment, in the window and the sphere. -/
theorem Svc.queryWindow_snapshot {W : WaitingChannel (Except Status (QueryResponse α))}
    {view : W.Chan → BoundedQueue (Except Status (QueryResponse α))} (hW : W.Models view)
    {c : W.Chan} (hc : W.new 64 = some c) (decode : Bytes → Option α) (req : QueryWindowRequest)
    (s₀ : SpatioTemporalStore L) (acts : List (StreamAction (SpatioTemporalStore L))) :
    ((∃ status, Svc.queryWindow (L := L) decode req = .error status) ↔
      req.endSecs < req.startSecs) ∧
    ∀ items, Svc.queryWindow decode req = .ok items →
      let x := (Streaming.start s₀ c : Streaming W _).after items acts
      (x.scanned = false → x.relay.taken = []) ∧
        (x.scanned = true → ∃ s ∈ Streaming.seen (Streaming.start s₀ c : Streaming W _) acts,
          ∃ answer,
            (answer = (InterstellarDb.queryWindow s req.centerX req.centerY req.centerZ req.radius
                req.startSecs req.endSecs).map (fun o => .ok (obsToResponse decode o)) ∨
              ∃ err, answer = [.error (.internal err)]) ∧
            x.relay.taken <+: answer ∧
            (∀ response, .ok response ∈ x.relay.taken → ∃ r ∈ s.rows,
              Matches s.indexer req.centerX req.centerY req.centerZ req.radius req.startSecs
                  req.endSecs r.1 ∧
                response = obsToResponse decode (observation s.indexer r)) ∧
            (.relay .hangUp ∉ acts → ∀ m ≥ x.relay.unread view,
              (x.relay.after (Relay.rounds m)).taken = answer)) := by
  refine ⟨?_, ?_⟩
  · unfold Svc.queryWindow
    split_ifs with hwindow
    · exact iff_of_true ⟨_, rfl⟩ hwindow
    · exact iff_of_false (fun ⟨_, h⟩ => nomatch h) hwindow
  · intro items hitems x
    obtain ⟨hbefore, hafter⟩ :=
      Streaming.snapshot items hW (hW.new hc) (by norm_num) s₀ acts
    refine ⟨hbefore, fun hs => ?_⟩
    obtain ⟨s, hmem, failure, htaken, hall⟩ := hafter hs
    have hanswer := queryWindow_eq_ok hitems s failure
    refine ⟨s, hmem, _, hanswer, htaken, fun response hresponse => ?_, hall⟩
    have hin := htaken.subset hresponse
    rcases hanswer with heq | ⟨err, heq⟩
    · rw [heq] at hin
      exact mem_responses hin
    · rw [heq] at hin
      cases List.mem_singleton.1 hin

end Answers

/-! ## Answers that are streamed while the store changes -/

section Sample

local instance streamsSha : Sha256 := sampleDigests

/-- A store with a row at the lower corner of the range is scanned, and then it is empty. -/
def leafActions : List (StreamAction (SpatioTemporalStore merkleLeafDepth)) :=
  [.scan none, .write sampleStore, .relay .push, .relay .read]

theorem SyncService.fetch_snapshot_leaf :
    ∃ items, fetchItems (leafKeyRange 0 0 15).1.bytes (leafKeyRange 0 0 15).2.bytes = .ok items ∧
      let x := (Streaming.start storedOnce (.new 64) :
        Streaming (waitingQueue _ 64) _).after items leafActions
      x.relay.taken = [.ok ⟨(Key.ofFields 0 0 0).bytes, [0x61]⟩] ∧
        ∃ s ∈ [storedOnce, sampleStore], ∃ rows answer,
          fetch s (leafKeyRange 0 0 15).1.bytes (leafKeyRange 0 0 15).2.bytes = .ok rows ∧
            Streams rows answer ∧ x.relay.taken <+: answer := by
  refine ⟨_, rfl, by decide +kernel, ?_⟩
  obtain ⟨-, h⟩ := fetch_snapshot (models_waitingQueue 64) (c := .new 64) rfl
    (leafKeyRange 0 0 15).1.bytes (leafKeyRange 0 0 15).2.bytes storedOnce leafActions
  obtain ⟨s, hs, rows, answer, hrows, hstreams, htaken, -⟩ := (h _ rfl).2 rfl
  exact ⟨s, hs, rows, answer, hrows, hstreams, htaken⟩

/-- A query around the upper corner of the range. -/
def cornerRequest : QueryWindowRequest := ⟨1000, 1000, 1000, 1, 0, 10⟩

/-- The row at the corner is scanned, and then the store is another one. -/
def cornerActions : List (StreamAction (SpatioTemporalStore merkleLeafDepth)) :=
  [.scan none, .write (cornerQueryStore 10 1), .relay .push, .relay .read]

theorem Svc.queryWindow_snapshot_corner :
    ∃ items, Svc.queryWindow (some : Bytes → Option Bytes) cornerRequest = .ok items ∧
      let x := (Streaming.start (cornerQueryStore 10 0) (.new 64) :
        Streaming (waitingQueue _ 64) _).after items cornerActions
      ∀ response, .ok response ∈ x.relay.taken →
        ∃ s ∈ [cornerQueryStore 10 0, cornerQueryStore 10 1], ∃ r ∈ s.rows,
          response = obsToResponse some (observation s.indexer r) := by
  refine ⟨_, rfl, fun response hresponse => ?_⟩
  obtain ⟨-, h⟩ := Svc.queryWindow_snapshot (models_waitingQueue 64) (c := .new 64) rfl
    (some : Bytes → Option Bytes) cornerRequest (cornerQueryStore 10 0) cornerActions
  obtain ⟨s, hs, answer, -, -, hread, -⟩ := (h _ rfl).2 rfl
  obtain ⟨r, hr, -, heq⟩ := hread response hresponse
  exact ⟨s, hs, r, hr, heq⟩

end Sample

end InterstellarDb
