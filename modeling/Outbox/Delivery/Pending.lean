import Outbox.Config
import Outbox.Endpoint
import Outbox.Storage.Key
import Outbox.Text.Base64

/-! # Pending deliveries

A payload that the collector has not accepted yet. It is stored as a record in JSON, with the
payload in base64, before anything is sent.
-/

namespace Outbox

/-- A payload on its way to the collector. -/
structure Pending where
  id : String
  endpoint : Endpoint
  payload : Bytes
  created : Millis
  /-- Tells deliveries of one millisecond apart. -/
  sequence : Word64
  retries : Word32
  lastAttempt : Option Millis
  deriving Repr, DecidableEq

namespace Pending

def make (id : String) (sequence : Word64) (endpoint : Endpoint) (payload : Bytes)
    (now : Millis) : Pending :=
  { id, endpoint, payload, created := now, sequence, retries := 0, lastAttempt := none }

/-- The key under which the delivery is stored. Endpoints that take nothing have none, and neither
    has a delivery whose id cannot be part of a file name. -/
def key? (p : Pending) : Option Storage.Key :=
  match p.endpoint.kind? with
  | none => none
  | some kind =>
    match Storage.Key.make p.created kind p.id with
    | .ok key => some key
    | .error _ => none

def isBefore (p q : Pending) : Bool :=
  p.created.val < q.created.val ||
    (p.created.val == q.created.val && p.sequence.val < q.sequence.val)

/-- The delivery is too old, or was tried too often, to be sent. -/
def isStale (p : Pending) (now maxAge : Millis) (maxRetries : Word32) : Bool :=
  maxAge.val < (now.since p.created).val || maxRetries.val ≤ p.retries.val

def failed (p : Pending) (now : Millis) : Pending :=
  { p with retries := .clamp (p.retries.val + 1) Word32.bounds, lastAttempt := some now }

/-! ## The record -/

def fieldNames : List String :=
  ["id", "endpoint", "payload", "created_at_ms", "sequence", "retry_count", "last_attempt_ms"]

def toJson (p : Pending) : Json :=
  .record (fieldNames.zip
    [.ofString p.id, .ofString p.endpoint.name, .string (Text.Base64.encode p.payload),
      .ofInt p.created.val, .ofInt p.sequence.val, .ofInt p.retries.val,
      .ofOption (fun t => .ofInt t.val) p.lastAttempt])

def payload? : Json → Option Bytes
  | .string raw => (Json.text? raw).bind fun s => Text.Base64.decode? (Bytes.ofString s)
  | _ => none

def ofJson? (j : Json) : Option Pending :=
  match Json.fields? fieldNames j with
  | some ⟨positional, [id, endpoint, payload, created, sequence, retries, last]⟩ => do
    let id ← Json.required? Json.asString? id
    let endpoint ← Json.required? (Json.asOneOf? Endpoint.all Endpoint.name) endpoint
    let payload ← Json.required? payload? payload
    let created ← Json.required? Json.asRanged? created
    let sequence ← Json.defaulted? Json.asRanged? (0 : Word64) sequence
    let retries ← Json.required? Json.asRanged? retries
    let lastAttempt ← Json.optional? Json.asRanged? positional last
    pure { id, endpoint, payload, created, sequence, retries, lastAttempt }
  | _ => none

def encode (p : Pending) : Bytes := p.toJson.render

def decode? (b : Bytes) : Option Pending := (Json.read? b).bind ofJson?

end Pending

end Outbox
