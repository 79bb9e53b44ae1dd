import Outbox.Delivery.Queue
import Outbox.Delivery.RateLimit
import Outbox.Delivery.Task
import Outbox.Envelope.Record
import Outbox.Permits

/-! # The delivery service

Payloads are sent at least once. Each one is stored before it is sent and leaves the store only when
the collector accepted it or when it is given up for good: because it is too large, was refused, or
is stale. Nothing is sent while there is no connection or while the endpoint has to be left alone.
What failed otherwise is sent again after a growing delay.

The service is a state and the steps that its tasks make from one stage to the next. A step reads
and changes the whole state and is never interrupted, and the steps of different tasks may come in
any order. Attempts to send to one endpoint hold its lane, and each one reads its delivery again
once it has the lane, so that no delivery is under way twice.
-/

namespace Outbox

open Storage (Key Store)

/-- What can be seen of the service from outside. -/
inductive Happening where
  | event (event : Event)
  | report (report : Report)
  | post (endpoint : Endpoint) (id : String) (clock : Millis) (payload : Bytes)
  | get (endpoint : Endpoint) (clock : Millis) (etag : Option String)
  deriving Repr, DecidableEq

/-- The state of the service. -/
structure Service where
  config : Config
  /-- The id of the delivery with this number. -/
  idOf : Nat → String
  made : Nat
  clock : Millis
  /-- Milliseconds since the process began, which no change of the clock affects. -/
  elapsed : Nat
  network : NetworkStatus
  queue : Queue
  snapshots : Store
  limits : RateLimits
  /-- The time of the earliest planned replay of each endpoint. -/
  replays : PerEndpoint (Option Millis)
  /-- The envelopes whose final form was handed over, with the time of it. -/
  finalized : List (String × Millis)
  lanes : PerEndpoint (Permits Nat)
  workers : Permits Nat
  tasks : List Task
  /-- The tasks that can go on, in the order in which they will. -/
  ready : List Nat
  /-- What happened, the latest first. -/
  journal : List Happening

namespace Service

/-- The service of a new process over what is on disk. -/
def start (config : Config) (idOf : Nat → String) (made : Nat) (clock : Millis)
    (pending snapshots : Store) : Service where
  config
  idOf
  made
  clock
  elapsed := 0
  network := .unknown
  queue := .ofStore pending
  snapshots
  limits := .ofConfig config
  replays := .const none
  finalized := []
  lanes := .const (.ofCapacity 1)
  workers := .ofCapacity (max config.workerThreads.toNat 1)
  tasks := []
  ready := []
  journal := []

/-- How long the id of an envelope is remembered after its end, in milliseconds. -/
def finalizedRetention : Int := 600000

/-! ## Small steps -/

def note (s : Service) (h : Happening) : Service := { s with journal := h :: s.journal }

def emit (s : Service) (e : Event) : Service := s.note (.event e)

def report (s : Service) (rs : List Report) : Service :=
  { s with journal := (rs.map Happening.report).reverse ++ s.journal }

def setStage (s : Service) (id : Nat) (stage : Stage) : Service :=
  { s with tasks := s.tasks.modify id fun t => { t with stage } }

def stage? (s : Service) (id : Nat) : Option Stage := s.tasks[id]?.map (·.stage)

/-- Lets a task go on after those that already can. -/
def wake (s : Service) (id : Nat) : Service := { s with ready := s.ready ++ [id] }

def addTask (s : Service) (t : Task) : Service := { s with tasks := s.tasks ++ [t] }

def spawn (s : Service) (job : Job) : Service :=
  (s.wake s.tasks.length).addTask ⟨true, none, .spawned job⟩

/-- Adds a task that needs a worker once `delay` milliseconds have passed. -/
def spawnAfter (s : Service) (delay : Nat) (job : Job) : Service :=
  if delay = 0 then s.spawn job
  else s.addTask ⟨true, none, .sleeping (s.elapsed + delay) job⟩

/-- Adds a task for a caller that waits for it. It goes on before all others. -/
def call (s : Service) (job : Job) : Service :=
  ({ s with ready := s.tasks.length :: s.ready }).addTask ⟨false, none, .starting job⟩

/-- Lets the tasks begin that were given a worker. -/
def seat (s : Service) (granted : List Nat) (self : Option Nat) : Service :=
  granted.foldl (fun s id =>
    match s.stage? id with
    | some (.atWorkers job) =>
      let s := s.setStage id (.starting job)
      if self = some id then s else s.wake id
    | _ => s) s

def enter (s : Service) (granted : List Nat) (self : Option Nat) : Service :=
  granted.foldl (fun s id =>
    match s.stage? id with
    | some (.atLane p purpose) =>
      let s := s.setStage id (.onLane p purpose)
      if self = some id then s else s.wake id
    | _ => s) s

def leaveLane (s : Service) (id : Nat) (e : Endpoint) : Service :=
  let (lane, granted) := (s.lanes.get e).leave id
  ({ s with lanes := s.lanes.set e lane }).enter granted none

/-- Tells a waiting task that one of the tasks it waits for has ended. -/
def notifyParent (s : Service) (parent : Nat) (result : Result) : Service :=
  match s.stage? parent, result with
  | some (.joining left delivered), .count n =>
    let s := s.setStage parent (.joining (left - 1) (delivered + n))
    if left - 1 = 0 then s.wake parent else s
  | _, _ => s

def finish (s : Service) (id : Nat) (result : Result) : Service :=
  match s.tasks[id]? with
  | none => s
  | some t =>
    let s := s.setStage id (.finished result)
    let s :=
      if t.pooled then
        let (workers, granted) := s.workers.leave id
        ({ s with workers }).seat granted none
      else s
    match t.parent with
    | some parent => s.notifyParent parent result
    | none => s

/-! ## What the steps look at -/

def isOffline (s : Service) : Bool := s.network == .notReachable

/-- The final form of the envelope was handed over. -/
def isFinalized (s : Service) (id : String) : Bool := s.finalized.any fun f => f.1 == id

/-- Remembers that the final form of an envelope was handed over, and forgets those that are long
    gone. -/
def markFinalized (s : Service) (e : Envelope) : Service :=
  let kept := s.finalized.filter fun f => (s.clock.since f.2).val < finalizedRetention
  { s with finalized := (e.id, s.clock) :: kept.filter fun f => f.1 != e.id }

/-- Plans a replay of an endpoint. An earlier one that is planned already will do. -/
def scheduleReplay (s : Service) (e : Endpoint) (time : Millis) : Service :=
  let covered := (s.replays.get e).any fun planned => planned.val ≤ time.val
  if covered then s
  else
    let delay := (time.since s.clock).toNat
    ({ s with replays := s.replays.set e (some time) }).spawnAfter delay (.replayAt e time)

def suppression? (s : Service) (p : Pending) : Option QueueReason :=
  if s.isOffline then some .offline
  else if s.limits.isLimited p.endpoint s.clock then some .rateLimited
  else none

/-- Leaves a delivery in the queue for a reason that concerns its whole endpoint. -/
def hold (s : Service) (p : Pending) (reason : QueueReason) : Service :=
  let s :=
    match reason, s.limits.limitedUntil? p.endpoint s.clock with
    | .rateLimited, some time => s.scheduleReplay p.endpoint time
    | _, _ => s
  s.emit (.queued p.endpoint p.id reason)

/-! ## Files -/

def snapshotKey? (s : Service) (e : Envelope) : Service × Option Key :=
  match Key.make e.start e.kind e.id with
  | .ok key => (s, some key)
  | .error err =>
    (s.report [⟨.invalidStorageKey, "Cannot cache envelope " ++ e.id,
      some (.error err.message)⟩], none)

/-- Stores a snapshot of an envelope, and tells whether that worked. -/
def storeSnapshot (s : Service) (e : Envelope) : Service × Bool :=
  match s.snapshotKey? e with
  | (s, none) => (s, false)
  | (s, some key) =>
    let (snapshots, reports, result) := s.snapshots.putBytes key e.encode
    (({ s with snapshots }).report reports, result.isOk)

def deleteSnapshot (s : Service) (e : Envelope) : Service :=
  match s.snapshotKey? e with
  | (s, none) => s
  | (s, some key) =>
    let (snapshots, reports) := s.snapshots.delete key
    ({ s with snapshots }).report reports

/-- Stores a checkpoint of an envelope, unless its final form was handed over meanwhile. -/
def writeSnapshot (s : Service) (e : Envelope) : Service :=
  match s.storeSnapshot e with
  | (s, true) => if s.isFinalized e.id then s.deleteSnapshot e else s
  | (s, false) => s

/-- Puts a new payload in the queue, and tells whether it is on disk. -/
def enqueue (s : Service) (e : Endpoint) (payload : Bytes) : Service × Pending × Bool :=
  let p := Pending.make (s.idOf s.made) (.wrap s.made Word64.bounds) e payload s.clock
  let (queue, reports, result) := s.queue.save p
  (({ s with queue, made := s.made + 1 }).report reports, p, result.isOk)

/-- Puts the final form of an envelope in the queue. Its snapshot is deleted if the queue has it on
    disk; otherwise the final form takes the place of the snapshot, and the next process finds
    it. -/
def persistFinal (s : Service) (e : Envelope) : Service × Pending × Bool :=
  let (s, p, durable) := s.enqueue e.endpoint e.body
  if durable then (s.deleteSnapshot e, p, true) else ((s.storeSnapshot e).1, p, false)

/-- Queues the snapshots with these keys. Each one is deleted once the queue has it on disk, and so
    is one that makes no sense. The number of queued ones is returned. -/
def requeue (s : Service) : List Key → Service × Nat
  | [] => (s, 0)
  | key :: keys =>
    let failure (what cause : String) : Report :=
      ⟨.payloadResurrectionFail, what ++ " snapshot " ++ key.name, some (.error cause)⟩
    let drop (s : Service) : Service :=
      let (snapshots, reports) := s.snapshots.delete key
      ({ s with snapshots }).report reports
    if s.isFinalized key.id then s.requeue keys
    else
      let (reports, found) := s.snapshots.loadBytes key
      let s := s.report reports
      match found with
      | .ok none => s.requeue keys
      | .error e => ((s.report [failure "Unreadable" e.message] |> drop).requeue keys)
      | .ok (some b) =>
        match Envelope.decode? b with
        | none => ((s.report [failure "Undecodable" "json"] |> drop).requeue keys)
        | some e =>
          let (s, _, durable) := s.enqueue e.endpoint e.body
          let (s, n) := (if durable then drop s else s).requeue keys
          (s, n + 1)

/-- Queues the snapshots that an earlier process left. -/
def resurrect (s : Service) : Service × Nat :=
  let (keys, reports) := s.snapshots.stored
  (s.report reports).requeue keys

def perform (s : Service) : Work → Service × Done
  | .enqueue e payload =>
    let (s, p, _) := s.enqueue e payload
    (s, .enqueued p)
  | .persist e =>
    let (s, p, durable) := s.persistFinal e
    (s, .persisted e p durable)
  | .cache e => (s.writeSnapshot e, .cached)
  | .remove p ending purpose =>
    let (queue, reports) := s.queue.remove p
    (({ s with queue }).report reports, .removed p ending purpose)
  | .record p time purpose =>
    let (queue, reports, p) := s.queue.recordFailure p time
    (({ s with queue }).report reports, .recorded p time purpose)
  | .discard e outcome => (s.deleteSnapshot e, .discarded outcome)
  | .resurrect =>
    let (s, n) := s.resurrect
    (s, .resurrected n)

/-! ## Attempts -/

/-- Goes on after an attempt that left its delivery in the queue. A replay ends with it. -/
def concludeQueued (s : Service) (id : Nat) (reason : QueueReason) : Purpose → Service
  | .send => s.finish id (.sent (.queued reason))
  | .final _ _ => s.finish id (.handled (some (.queued reason)))
  | .replay _ _ delivered => s.finish id (.count delivered)

/-- Begins to send a delivery: waits for the lane of its endpoint, unless nothing is sent now. -/
def attempt (s : Service) (id : Nat) (p : Pending) (purpose : Purpose) : Service :=
  match s.suppression? p with
  | some reason => (s.hold p reason).concludeQueued id reason purpose
  | none =>
    let s := s.setStage id (.atLane p purpose)
    let (lane, granted) := (s.lanes.get p.endpoint).request id
    ({ s with lanes := s.lanes.set p.endpoint lane }).enter granted (some id)

/-- Reports that a delivery is given up and begins to take it from the queue. -/
def drop (s : Service) (id : Nat) (p : Pending) (reason : DropReason) (onLane : Bool)
    (purpose : Purpose) : Service :=
  let kind := if reason = .stale then .staleDeliveryDropped else .deliveryDataLoss
  let message := "Dropped delivery " ++ p.id ++ " to " ++ p.endpoint.name ++ ": " ++ reason.name
  (s.report [⟨kind, message, none⟩]).setStage id
    (.working (.remove p (.dropped reason onLane) purpose))

/-- The delivery is too old, or was tried too often. -/
def isStale (s : Service) (p : Pending) : Bool :=
  p.isStale s.clock s.config.maxPendingAge s.config.maxRetryCount

def replayNext (s : Service) (id : Nat) (e : Endpoint) (rest : List Pending) (delivered : Nat) :
    Service :=
  match rest with
  | [] => s.finish id (.count delivered)
  | p :: rest =>
    let purpose := Purpose.replay e rest delivered
    if s.isStale p then s.drop id p .stale false purpose else s.attempt id p purpose

def conclude (s : Service) (id : Nat) (outcome : SendOutcome) (purpose : Purpose) : Service :=
  match outcome, purpose with
  | .queued reason, purpose => s.concludeQueued id reason purpose
  | outcome, .send => s.finish id (.sent outcome)
  | outcome, .final e durable =>
    if !durable && outcome.isTerminal then s.setStage id (.working (.discard e outcome))
    else s.finish id (.handled (some outcome))
  | .delivered, .replay e rest n => s.replayNext id e rest (n + 1)
  | _, .replay e rest n => s.replayNext id e rest n

/-- Looks at a delivery again once the task has the lane, and sends it. -/
def send (s : Service) (id : Nat) (p : Pending) (purpose : Purpose) : Service :=
  match s.queue.get? p.endpoint p.id with
  | none => (s.leaveLane id p.endpoint).conclude id .skipped purpose
  | some current =>
    match s.suppression? current with
    | some reason =>
      ((s.hold current reason).leaveLane id p.endpoint).conclude id (.queued reason) purpose
    | none =>
      (s.note (.post p.endpoint current.id s.clock current.payload)).setStage id
        (.posting current purpose)

def handle (s : Service) (id : Nat) (p : Pending) (answer : Answer) (purpose : Purpose) :
    Service :=
  match answer with
  | .success _ _ =>
    ({ s with limits := s.limits.clear p.endpoint }).setStage id
      (.working (.remove p .delivered purpose))
  | .tooManyRequests retryAfter =>
    let (limits, time) := s.limits.reject p.endpoint retryAfter s.clock
    let s := ({ s with limits }).emit (.rateLimited p.endpoint time)
    let s := (s.scheduleReplay p.endpoint time).emit (.queued p.endpoint p.id .rateLimited)
    (s.leaveLane id p.endpoint).conclude id (.queued .rateLimited) purpose
  | .payloadTooLarge => s.drop id p .payloadTooLarge true purpose
  | .failure status =>
    if 400 ≤ status.val ∧ status.val < 500 then s.drop id p (.rejected status) true purpose
    else s.setStage id (.working (.record p s.clock purpose))
  | .notModified | .incomplete _ => s.setStage id (.working (.record p s.clock purpose))

/-- The time of the next attempt of a delivery that failed at `time`. -/
def retryTime (s : Service) (p : Pending) (time : Millis) : Millis :=
  time.shift (Millis.ofWord (s.config.retryDelay p.retries)).val

def resume (s : Service) (id : Nat) : Done → Service
  | .enqueued p => s.attempt id p .send
  | .persisted e p durable => s.attempt id p (.final e durable)
  | .cached => s.finish id (.handled none)
  | .removed p .delivered purpose =>
    ((s.emit (.delivered p.endpoint p.id)).leaveLane id p.endpoint).conclude id .delivered purpose
  | .removed p (.dropped reason onLane) purpose =>
    let s := s.emit (.dropped p.endpoint p.id reason)
    (if onLane then s.leaveLane id p.endpoint else s).conclude id (.dropped reason) purpose
  | .recorded p time purpose =>
    if s.config.maxRetryCount.val ≤ p.retries.val then s.drop id p .stale true purpose
    else
      let s := s.scheduleReplay p.endpoint (s.retryTime p time)
      let s := s.emit (.queued p.endpoint p.id .retryScheduled)
      (s.leaveLane id p.endpoint).conclude id (.queued .retryScheduled) purpose
  | .discarded outcome => s.finish id (.handled (some outcome))
  | .resurrected n => s.finish id (.count n)

/-! ## Beginning and asking -/

/-- Starts a replay of every endpoint that has deliveries, and waits for them. -/
def flush (s : Service) (id : Nat) : Service :=
  let endpoints := if s.isOffline then [] else s.queue.endpoints
  if endpoints.isEmpty then s.finish id (.count 0)
  else
    endpoints.foldl
      (fun s e => (s.wake s.tasks.length).addTask ⟨false, some id, .starting (.replay e)⟩)
      (s.setStage id (.joining endpoints.length 0))

/-- Asks an endpoint for what is newer than a version. -/
def fetch (s : Service) (id : Nat) (e : Endpoint) (etag : Option String) : Service :=
  if s.isOffline then s.finish id (.fetched .offline)
  else if s.limits.isLimited e s.clock then s.finish id (.fetched .rateLimited)
  else (s.note (.get e s.clock etag)).setStage id (.asking e)

def learn (s : Service) (id : Nat) (e : Endpoint) : Answer → Service
  | .success body etag =>
    ({ s with limits := s.limits.clear e }).finish id (.fetched (.fetched body etag))
  | .notModified => ({ s with limits := s.limits.clear e }).finish id (.fetched .notModified)
  | .tooManyRequests retryAfter =>
    let (limits, time) := s.limits.reject e retryAfter s.clock
    (({ s with limits }).emit (.rateLimited e time)).finish id (.fetched .rateLimited)
  | .payloadTooLarge => s.finish id (.fetched (.failed "HTTP 413"))
  | .failure status => s.finish id (.fetched (.failed ("HTTP " ++ decimal status.val)))
  | .incomplete e => s.finish id (.fetched (.failed e.message))

def begin (s : Service) (id : Nat) : Job → Service
  | .send e payload =>
    match e.kind? with
    | none =>
      (s.report [⟨.deliveryDataLoss, e.name ++ " does not accept payloads", none⟩]).finish id
        (.sent (.dropped .unsupportedEndpoint))
    | some _ => s.setStage id (.working (.enqueue e payload))
  | .deliver e type =>
    if type.isTerminal then (s.markFinalized e).setStage id (.working (.persist e))
    else if s.isFinalized e.id then s.finish id (.handled none)
    else s.setStage id (.working (.cache e))
  | .sendFinal e p durable => s.attempt id p (.final e durable)
  | .flush => s.flush id
  | .replay e => s.replayNext id e (s.queue.pending e) 0
  | .replayAt e time =>
    let s :=
      if s.replays.get e = some time then { s with replays := s.replays.set e none } else s
    s.replayNext id e (s.queue.pending e) 0
  | .fetch e etag => s.fetch id e etag
  | .resurrect => s.setStage id (.working .resurrect)

def askWorker (s : Service) (id : Nat) (job : Job) : Service :=
  let s := s.setStage id (.atWorkers job)
  let (workers, granted) := s.workers.request id
  ({ s with workers }).seat granted (some id)

/-! ## Steps -/

/-- The next step of a task that can go on by itself. -/
def advance (s : Service) (id : Nat) : Service :=
  match s.stage? id with
  | some (.spawned job) => s.askWorker id job
  | some (.starting job) => s.begin id job
  | some (.worked done) => s.resume id done
  | some (.onLane p purpose) => s.send id p purpose
  | some (.answered p answer purpose) => s.handle id p answer purpose
  | some (.told e answer) => s.learn id e answer
  | some (.joining 0 delivered) => s.finish id (.count delivered)
  | _ => s

/-- Deals with files for a task that waits for it. -/
def work (s : Service) (id : Nat) : Service :=
  match s.stage? id with
  | some (.working w) =>
    let (s, done) := s.perform w
    s.setStage id (.worked done)
  | _ => s

def answer (s : Service) (id : Nat) (a : Answer) : Service :=
  match s.stage? id with
  | some (.posting p purpose) => s.setStage id (.answered p a purpose)
  | some (.asking e) => s.setStage id (.told e a)
  | _ => s

def fire (s : Service) (id : Nat) : Service :=
  match s.stage? id with
  | some (.sleeping time job) =>
    if time ≤ s.elapsed then (s.setStage id (.spawned job)).wake id else s
  | _ => s

/-- Notes what is known about the network. A connection that comes back starts a flush. -/
def setNetwork (s : Service) (status : NetworkStatus) : Service :=
  let changed := s.network != status
  let s := { s with network := status }
  if changed && status == .reachable then s.spawn .flush else s

/-- Takes an envelope from the session. A crash is put in the queue at once, because the process
    may not live to do it later. -/
def sendEnvelope (s : Service) (e : Envelope) (type : SnapshotType) : Service :=
  match type with
  | .crash =>
    let (s, p, durable) := (s.markFinalized e).persistFinal e
    s.spawn (.sendFinal e p durable)
  | _ => s.spawn (.deliver e type)

/-- Loads the queue from disk. The number of loaded deliveries is returned. -/
def loadQueue (s : Service) : Service × Nat :=
  let (queue, reports, n) := s.queue.load
  (({ s with queue }).report reports, n)

end Service

end Outbox
