import Outbox.Bytes
import Outbox.Endpoint
import Outbox.Ranged

/-! # Envelopes

An envelope is one finished unit of telemetry. Once it is built nothing changes it: ending or
checkpointing a running envelope builds another one.
-/

namespace Outbox

/-- One unit of telemetry, built by the host. -/
structure Envelope where
  id : String
  kind : Kind
  start : Millis
  /-- When it ended; absent while it is the running one. -/
  ended : Option Millis
  state : ProcessState
  /-- The report itself, which only the collector reads. -/
  body : Bytes
  deriving Repr, DecidableEq

namespace Envelope

def endpoint (e : Envelope) : Endpoint := e.kind.endpoint

/-- The envelope belongs to a background activity. -/
def isBackground (e : Envelope) : Bool := e.state == .background

end Envelope

end Outbox
