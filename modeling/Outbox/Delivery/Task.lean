import Outbox.Delivery.Outcome
import Outbox.Delivery.Pending
import Outbox.Envelope

/-! # Background tasks

Sending is done by many tasks at once. A task is described by its stage: what it waits for, or what
it will do next, together with all that it needs then. Between two stages it runs without being
interrupted.
-/

namespace Outbox

/-- What a task is started for. -/
inductive Job where
  | send (endpoint : Endpoint) (payload : Bytes)
  | deliver (envelope : Envelope) (type : SnapshotType)
  /-- Send the final form of an envelope that is in the queue; `durable` tells whether it is on
      disk too. -/
  | sendFinal (envelope : Envelope) (pending : Pending) (durable : Bool)
  | flush
  | replay (endpoint : Endpoint)
  /-- Send what is in the queue of one endpoint, as was planned for a time. -/
  | replayAt (endpoint : Endpoint) (time : Millis)
  | fetch (endpoint : Endpoint) (etag : Option String)
  | resurrect
  deriving Repr, DecidableEq

/-- What the outcome of an attempt is for. -/
inductive Purpose where
  | send
  /-- It decides what becomes of the snapshot of an envelope. -/
  | final (envelope : Envelope) (durable : Bool)
  /-- It decides how the replay of an endpoint goes on, with `rest` still to be sent and
      `delivered` accepted so far. -/
  | replay (endpoint : Endpoint) (rest : List Pending) (delivered : Nat)
  deriving Repr, DecidableEq

/-- How a delivery leaves the queue. -/
inductive Ending where
  | delivered
  /-- It is given up; `onLane` tells whether the task has the endpoint to itself. -/
  | dropped (reason : DropReason) (onLane : Bool)
  deriving Repr, DecidableEq

/-- What a task does with files. -/
inductive Work where
  | enqueue (endpoint : Endpoint) (payload : Bytes)
  | persist (envelope : Envelope)
  | cache (envelope : Envelope)
  | remove (pending : Pending) (ending : Ending) (purpose : Purpose)
  | record (pending : Pending) (time : Millis) (purpose : Purpose)
  | discard (envelope : Envelope) (outcome : SendOutcome)
  | resurrect
  deriving Repr, DecidableEq

/-- What came of it. -/
inductive Done where
  | enqueued (pending : Pending)
  | persisted (envelope : Envelope) (pending : Pending) (durable : Bool)
  | cached
  | removed (pending : Pending) (ending : Ending) (purpose : Purpose)
  | recorded (pending : Pending) (time : Millis) (purpose : Purpose)
  | discarded (outcome : SendOutcome)
  | resurrected (count : Nat)
  deriving Repr, DecidableEq

/-- The answer of a task to whoever waits for it. -/
inductive Result where
  | sent (outcome : SendOutcome)
  /-- The outcome of sending an envelope; there is none for a checkpoint. -/
  | handled (outcome : Option SendOutcome)
  | count (n : Nat)
  | fetched (outcome : FetchOutcome)
  deriving Repr, DecidableEq

/-- Where a task stands. -/
inductive Stage where
  /-- It waits for a time, in milliseconds since the process began. -/
  | sleeping (time : Nat) (job : Job)
  | spawned (job : Job)
  | atWorkers (job : Job)
  | starting (job : Job)
  | working (work : Work)
  | worked (done : Done)
  | atLane (pending : Pending) (purpose : Purpose)
  /-- It has the lane and will look at the delivery again. -/
  | onLane (pending : Pending) (purpose : Purpose)
  | posting (pending : Pending) (purpose : Purpose)
  | answered (pending : Pending) (answer : Answer) (purpose : Purpose)
  | asking (endpoint : Endpoint)
  | told (endpoint : Endpoint) (answer : Answer)
  /-- It waits for other tasks, of which `left` have not ended and the others delivered so much. -/
  | joining (left delivered : Nat)
  | finished (result : Result)
  deriving Repr, DecidableEq

/-- A task. -/
structure Task where
  pooled : Bool
  /-- The task that waits for it. -/
  parent : Option Nat
  stage : Stage
  deriving Repr, DecidableEq

namespace Stage

def isRunnable : Stage → Bool
  | spawned _ | starting _ | worked _ | onLane _ _ | answered _ _ _ | told _ _ => true
  | joining left _ => left == 0
  | _ => false

def isFinished : Stage → Bool
  | finished _ => true
  | _ => false

def isWorking : Stage → Bool
  | working _ => true
  | _ => false

end Stage

end Outbox
