import InterstellarDb.Index.Codec
import InterstellarDb.Store.Alone
import InterstellarDb.Sync.Service

/-!
# Request handlers

The `Store` handler checks that a request has a payload and nothing else, so every timestamp
reaches `generate_key`. A request is rejected without touching the store exactly when its payload is
missing (`rejects_iff`), and the timestamp of an accepted one survives under the condition of
`rejects_or_keepsInstant_iff` only.
-/

namespace InterstellarDb

open Atomic

/-- `StoreRequest`; the payload is the encoding of the `Any` message. -/
structure StoreRequest where
  x : ℚ
  y : ℚ
  z : ℚ
  timestampSecs : Fin (2 ^ 64)
  timestampNanos : Fin (2 ^ 64)
  payload : Option Bytes

namespace Svc

/-- The record that `Svc::store` passes on. -/
def record (req : StoreRequest) (payload : Bytes) : BatchRecord :=
  ⟨req.x, req.y, req.z, req.timestampSecs, req.timestampNanos, payload⟩

/-- `Svc::store`: the bytes of the key in the response. -/
def store (ix : HybridSpatioTemporalIndexer) (req : StoreRequest) :
    StoreProg (Except Status Bytes) :=
  match req.payload with
  | none => return .error (.invalidArgument "payload is required")
  | some payloadBytes => do
    match ← InterstellarDb.store ix (record req payloadBytes) with
    | .error err => return .error (.internal err)
    | .ok key => return .ok key.bytes

/-- The handler answers with an error before it does anything with the store. -/
def Rejects (ix : HybridSpatioTemporalIndexer) (req : StoreRequest) : Prop :=
  ∃ status, store ix req = .ret (.error status)

variable {ix : HybridSpatioTemporalIndexer} {req : StoreRequest}

/-- **Only requests without a payload are rejected.** -/
theorem rejects_iff : Rejects ix req ↔ req.payload = none := by
  constructor
  · rintro ⟨status, h⟩
    cases hp : req.payload with
    | none => rfl
    | some payload =>
      rw [store, hp] at h
      cases h
  · intro hp
    refine ⟨.invalidArgument "payload is required", ?_⟩
    rw [store, hp]
    rfl

/-- **When an accepted observation keeps its timestamp.** A request is rejected or keeps its instant
through the key exactly when it has no payload, or its epoch fits into 32 bits, its nanoseconds
since epoch 0 into 64, and its nanoseconds carry no second into the next epoch. -/
theorem rejects_or_keepsInstant_iff (ix : HybridSpatioTemporalIndexer) (req : StoreRequest) :
    Rejects ix req ∨ ix.KeepsInstant req.x req.y req.z req.timestampSecs req.timestampNanos ↔
      req.payload = none ∨ req.timestampSecs.val / ix.epochDuration < 2 ^ 32 ∧
        req.timestampSecs.val * nanosPerSec + req.timestampNanos.val < 2 ^ 64 ∧
        req.timestampSecs.val % ix.epochDuration + req.timestampNanos.val / nanosPerSec <
          ix.epochDuration := by
  rw [rejects_iff, HybridSpatioTemporalIndexer.keepsInstant_iff]
  rfl

/-- A request whose second lies beyond the last epoch. -/
def farRequest : StoreRequest :=
  ⟨0, 0, 0, ⟨15461882265600, by norm_num⟩, ⟨0, by norm_num⟩, some []⟩

/-- The request is accepted, and its second is lost. -/
theorem farRequest_loses_instant : ¬ (Rejects testIndexer farRequest ∨
    testIndexer.KeepsInstant farRequest.x farRequest.y farRequest.z farRequest.timestampSecs
      farRequest.timestampNanos) := by
  rw [rejects_iff, HybridSpatioTemporalIndexer.keepsInstant_iff]
  decide +kernel

end Svc

end InterstellarDb
