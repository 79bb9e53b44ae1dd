import Outbox.Core
import Outbox.Rehearsal.Puppet

/-! # Rehearsals

A process with a collector that answers from a script, a host that does as it is told, and a time
that only moves when it is moved. Tasks go on in the order in which they became able to, and
everything that can happen without time passing does happen before time goes on.
-/

namespace Outbox

abbrev Reply := Except TransportError Response

/-- A process under rehearsal. -/
structure Rehearsal where
  core : Core Puppet
  script : PerEndpoint (List Reply)
  /-- What the clock shows more than the time since the process began. -/
  offset : Int
  recording : Bool
  /-- The envelopes on record, the latest first. -/
  sent : List (SnapshotType × Envelope)

namespace Rehearsal

def ofService (config : Config) (idOf : Nat → String) (clock : Millis)
    (pending snapshots : Storage.Store) : Rehearsal where
  core :=
    { service := .start config idOf 0 clock pending snapshots
      session := .initial .foreground
      host := .fresh
      cacher := ⟨0, none⟩ }
  script := .const []
  offset := clock.val
  recording := false
  sent := []

/-- A core that starts over what a service finds on disk. -/
def startCore (p : Rehearsal) (state : ProcessState) : Rehearsal :=
  { p with core := .start Puppet.host p.core.service state .fresh }

/-- Only a session, whose envelopes are put on record. -/
def ofSession (config : Config) (clock : Millis) (state : ProcessState) (host : Puppet) :
    Rehearsal :=
  let p := ofService config (fun _ => "") clock ⟨.absent, 0⟩ ⟨.absent, 0⟩
  let turn := Session.begin Puppet.host config state clock host
  { p with core := p.core.take turn, recording := true }

/-- A new process over what this one leaves on disk. Its timers and all that it only remembered are
    gone. -/
def restart (p : Rehearsal) : Rehearsal :=
  let s := p.core.service
  let fresh := ofService s.config s.idOf s.clock s.queue.store s.snapshots
  { fresh with
    core := { fresh.core with service := { fresh.core.service with made := s.made } }
    script := p.script }

/-- How many steps are made at most before time goes on. -/
def patience : Nat := 1000000

def withService (p : Rehearsal) (service : Service) : Rehearsal :=
  { p with core := { p.core with service } }

/-- Takes the next answer of an endpoint. An empty script answers that all is well. -/
def nextReply (p : Rehearsal) (e : Endpoint) : Rehearsal × Reply :=
  match p.script.get e with
  | [] => (p, .ok (.ofStatus 200))
  | reply :: rest => ({ p with script := p.script.set e rest }, reply)

/-- Lets a task go on until it has to wait for something other than the collector. -/
def poll : Nat → Rehearsal → Nat → Rehearsal
  | 0, p, _ => p
  | fuel + 1, p, id =>
    match p.core.service.stage? id with
    | none => p
    | some (.posting d _) =>
      let (p, reply) := p.nextReply d.endpoint
      poll fuel (p.withService (p.core.service.answer id (.classify reply))) id
    | some (.asking e) =>
      let (p, reply) := p.nextReply e
      poll fuel (p.withService (p.core.service.answer id (.classify reply))) id
    | some stage =>
      if stage.isWorking then p.withService (p.core.service.wake id)
      else if stage.isRunnable then poll fuel (p.withService (p.core.service.advance id)) id
      else p

/-- One turn of a task: it deals with its files, or goes on. -/
def turn (p : Rehearsal) (id : Nat) : Rehearsal :=
  match p.core.service.stage? id with
  | some (.working _) => p.withService ((p.core.service.work id).wake id)
  | _ => poll patience p id

/-- Lets all tasks go on until nothing happens any more without time passing. -/
def settleFor : Nat → Rehearsal → Rehearsal
  | 0, p => p
  | fuel + 1, p =>
    match p.core.service.ready with
    | [] => p
    | id :: ready => settleFor fuel ((p.withService { p.core.service with ready }).turn id)

/-- Lets all tasks go on until nothing happens any more without time passing. -/
def settle (p : Rehearsal) : Rehearsal := settleFor patience p

/-- Moves the time to a point, given in milliseconds since the process began. -/
def moveTo (p : Rehearsal) (elapsed : Nat) : Rehearsal :=
  p.withService { p.core.service with elapsed, clock := .clamp (p.offset + elapsed) Millis.bounds }

def wakeTime? (t : Task) : Option Nat :=
  match t.stage with
  | .sleeping time _ => some time
  | _ => none

/-- The earliest time at which something will happen. -/
def nextTime? (p : Rehearsal) : Option Nat :=
  let times := p.core.service.tasks.filterMap wakeTime? ++ p.core.cacher.next.toList
  times.min?

def record (p : Rehearsal) (e : Envelope × SnapshotType) : Rehearsal :=
  { p with sent := (e.2, e.1) :: p.sent }

def take {α : Type} (p : Rehearsal) (t : Turn Puppet α) : Rehearsal × α :=
  if p.recording then
    let p := { p with core := p.core.take { t with sent := none } }
    (match t.sent with
      | some e => p.record e
      | none => p, t.result)
  else ({ p with core := p.core.take t }, t.result)

def transition (p : Rehearsal) (t : Transition) (time : Millis) : Rehearsal × TransitionOutcome :=
  p.take (p.core.session.transition Puppet.host p.core.service.config t time p.core.host)

def checkpoint (p : Rehearsal) : Rehearsal × Bool :=
  p.take (p.core.session.checkpoint Puppet.host p.core.service.clock p.core.host)

/-- Makes a checkpoint of the running background activity. -/
def checkpointBackground (p : Rehearsal) : Rehearsal × Bool :=
  p.take (p.core.session.checkpointBackground Puppet.host p.core.service.clock p.core.host)

/-- Starts checkpoints, in place of those that were started before. -/
def startCacher (p : Rehearsal) (period : Nat) : Rehearsal :=
  { p with core := { p.core with cacher := .start period p.core.service.elapsed } }

def stopCacher (p : Rehearsal) : Rehearsal := { p with core := p.core.shutdown }

def respond (p : Rehearsal) (e : Endpoint) (reply : Reply) : Rehearsal :=
  { p with script := p.script.set e (p.script.get e ++ [reply]) }

/-- What happened since the last time this was asked, in order. -/
def drain (p : Rehearsal) : List Happening × Rehearsal :=
  let s := p.core.service
  (s.journal.reverse, p.withService { s with journal := [] })

/-- How many events a listener can be behind before it loses the oldest. -/
def eventCapacity : Nat := 256

/-- The events that a listener gets who listens now and then. -/
def recent (happened : List Happening) : List Event :=
  let events := happened.filterMap fun h => match h with
    | .event e => some e
    | _ => none
  events.drop (events.length - eventCapacity)

def tick (p : Rehearsal) : Rehearsal :=
  if p.core.cacher.isDue p.core.service.elapsed then
    let (p, _) := p.checkpoint
    { p with core := { p.core with cacher := p.core.cacher.tick } }
  else p

def fireAll (p : Rehearsal) : Rehearsal :=
  p.withService
    ((List.range p.core.service.tasks.length).foldl Service.fire p.core.service)

/-- Lets time pass up to a point. Whatever is due on the way happens at its time. -/
def advanceTo : Nat → Rehearsal → Nat → Rehearsal
  | 0, p, _ => p
  | fuel + 1, p, target =>
    match p.nextTime? with
    | some time =>
      if time ≤ target then
        advanceTo fuel ((p.moveTo (max time p.core.service.elapsed)).fireAll.tick.settle) target
      else p.moveTo target
    | none => p.moveTo target

def advance (p : Rehearsal) (ms : Nat) : Rehearsal :=
  let p := p.settle
  advanceTo patience p (p.core.service.elapsed + ms)

def setClock (p : Rehearsal) (now : Millis) : Rehearsal :=
  let p := { p with offset := now.val - p.core.service.elapsed }
  p.withService { p.core.service with clock := now }

/-- Runs a job for a caller that waits for it, and gives its answer. -/
def run (p : Rehearsal) (job : Job) : Rehearsal × Option Result :=
  let id := p.core.service.tasks.length
  let p := (p.withService (p.core.service.call job)).settle
  (p, match p.core.service.stage? id with
    | some (.finished result) => some result
    | _ => none)

/-- Runs two flushes at once for a caller, and gives the number of deliveries. -/
def flushTwice (p : Rehearsal) : Rehearsal × Nat :=
  let id := p.core.service.tasks.length
  let s := (p.core.service.addTask ⟨false, none, .starting .flush⟩).addTask
    ⟨false, none, .starting .flush⟩
  let p := (p.withService { s with ready := id :: (id + 1) :: s.ready }).settle
  let count (id : Nat) : Nat :=
    match p.core.service.stage? id with
    | some (.finished (.count n)) => n
    | _ => 0
  (p, count id + count (id + 1))

end Rehearsal

end Outbox
