import Outbox.Delivery.Service
import Outbox.Session.Cacher
import Outbox.Session.Lifecycle

/-! # The running core

A session whose envelopes go to the delivery service. A new process first queues what earlier ones
left on disk, then begins its first envelope, and then starts to send.
-/

namespace Outbox

/-- Why a core cannot be started. -/
inductive CoreError where
  | transport (error : TransportError)
  deriving Repr, DecidableEq

def CoreError.message : CoreError → String
  | transport error => "failed to create transport: " ++ error.message

def CoreError.source : CoreError → String
  | transport error => error.message

/-- The core of a process with a host whose state is of type `σ`. -/
structure Core (σ : Type) where
  service : Service
  session : Session
  host : σ
  cacher : Cacher

namespace Core

variable {σ : Type}

/-- Makes the reports of a call and hands over what it sent. -/
def take {α : Type} (c : Core σ) (turn : Turn σ α) : Core σ :=
  let service := c.service.report turn.reports
  { c with
    session := turn.session
    host := turn.host
    service :=
      match turn.sent with
      | some (e, type) => service.sendEnvelope e type
      | none => service }

/-- Queues what earlier processes left: the deliveries, then the snapshots. -/
def recover (service : Service) : Service := ((service.loadQueue).1.resurrect).1

/-- A new process in this state, with a service over what is on disk. -/
def start (h : Host σ) (service : Service) (state : ProcessState) (host : σ) : Core σ :=
  let service := recover service
  let turn := Session.begin h service.config state service.clock host
  let c : Core σ :=
    { service
      session := turn.session
      host := turn.host
      cacher := .start service.config.periodicCacheInterval.toNat service.elapsed }
  let c := c.take turn
  { c with service := c.service.spawn .flush }

def transition (h : Host σ) (c : Core σ) (t : Transition) (time : Millis) :
    Core σ × TransitionOutcome :=
  let turn := c.session.transition h c.service.config t time c.host
  (c.take turn, turn.result)

def onForeground (h : Host σ) (c : Core σ) (coldStart : Bool) (time : Millis) :
    Core σ × TransitionOutcome :=
  c.transition h (.foreground coldStart) time

def onBackground (h : Host σ) (c : Core σ) (time : Millis) : Core σ × TransitionOutcome :=
  c.transition h .background time

def endManually (h : Host σ) (c : Core σ) (clearUser : Bool) : Core σ × TransitionOutcome :=
  c.transition h (.manual clearUser) c.service.clock

def endWithCrash (h : Host σ) (c : Core σ) (id : String) : Core σ × TransitionOutcome :=
  c.transition h (.crash id) c.service.clock

def checkpoint (h : Host σ) (c : Core σ) : Core σ × Bool :=
  let turn := c.session.checkpoint h c.service.clock c.host
  (c.take turn, turn.result)

/-- Stores a checkpoint of the running background activity. -/
def checkpointBackground (h : Host σ) (c : Core σ) : Core σ × Bool :=
  let turn := c.session.checkpointBackground h c.service.clock c.host
  (c.take turn, turn.result)

def tick (h : Host σ) (c : Core σ) : Core σ :=
  if c.cacher.isDue c.service.elapsed then
    let c := (c.checkpoint h).1
    { c with cacher := c.cacher.tick }
  else c

/-- Ends the checkpoints. What is queued stays on disk. -/
def shutdown (c : Core σ) : Core σ := { c with cacher := c.cacher.stop }

end Core

end Outbox
