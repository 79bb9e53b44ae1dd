import Outbox.Delivery.Response
import Outbox.Endpoint

/-! # Outcomes of sending

What an attempt to send a delivery came to, and the events that tell others about it.
-/

namespace Outbox

/-- Why a delivery stayed in the queue. -/
inductive QueueReason where
  | offline
  | rateLimited
  | retryScheduled
  deriving Repr, DecidableEq

namespace QueueReason

def all : List QueueReason := [.offline, .rateLimited, .retryScheduled]

def name : QueueReason → String
  | offline => "offline"
  | rateLimited => "rate_limited"
  | retryScheduled => "retry_scheduled"

end QueueReason

/-- Why a delivery was given up. -/
inductive DropReason where
  | payloadTooLarge
  | rejected (status : Word16)
  | stale
  | unsupportedEndpoint
  deriving Repr, DecidableEq

def DropReason.name : DropReason → String
  | payloadTooLarge => "payload_too_large"
  | rejected _ => "rejected"
  | stale => "stale"
  | unsupportedEndpoint => "unsupported_endpoint"

/-- What an attempt came to. -/
inductive SendOutcome where
  | delivered
  | queued (reason : QueueReason)
  | dropped (reason : DropReason)
  /-- There was nothing to send any more. -/
  | skipped
  deriving Repr, DecidableEq

def SendOutcome.isTerminal : SendOutcome → Bool
  | delivered | dropped _ => true
  | queued _ | skipped => false

/-- What fetching came to. -/
inductive FetchOutcome where
  | fetched (body : Bytes) (etag : Option String)
  | notModified
  | rateLimited
  | offline
  | failed (message : String)
  deriving Repr, DecidableEq

/-- What others are told. -/
inductive Event where
  | delivered (endpoint : Endpoint) (id : String)
  | queued (endpoint : Endpoint) (id : String) (reason : QueueReason)
  | dropped (endpoint : Endpoint) (id : String) (reason : DropReason)
  | rateLimited (endpoint : Endpoint) (deadline : Millis)
  deriving Repr, DecidableEq

def Event.endpoint : Event → Endpoint
  | delivered e _ | queued e _ _ | dropped e _ _ | rateLimited e _ => e

end Outbox
