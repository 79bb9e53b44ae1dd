import Outbox.Config
import Outbox.Session.Host

/-! # The life cycle of sessions

Going to the foreground or to the background, the end that the host asks for, and a crash each end
the running envelope and, except for a crash, begin the next one. A transition builds the final form
of the running envelope, lets the boundary hook clear what belongs to it, and builds the next one;
only when all of that worked is the new state committed, and only then is the final form sent.
-/

namespace Outbox

/-- What ends an envelope. -/
inductive Transition where
  | initial (state : ProcessState)
  | foreground (coldStart : Bool)
  | background
  | manual (clearUser : Bool)
  | crash (id : String)
  deriving Repr, DecidableEq

namespace Transition

def name : Transition → String
  | initial _ => "initial"
  | foreground _ => "foreground"
  | background => "background"
  | manual _ => "manual end"
  | crash _ => "crash"

def isRedundant : Transition → ProcessState → Bool
  | foreground _, state => state == .foreground
  | background, state | manual _, state => state == .background
  | initial _, _ | crash _, _ => false

def target : Transition → ProcessState → ProcessState
  | initial state, _ => state
  | foreground _, _ => .foreground
  | background, _ => .background
  | manual _, state | crash _, state => state

/-- The reason that the host is given for the end. -/
def endReason : Transition → EndReason
  | manual _ => .manual
  | crash id => .crash id
  | _ => .stateChange

def snapshotType : Transition → SnapshotType
  | crash _ => .crash
  | _ => .normalEnd

def startsEnvelope : Transition → Bool
  | crash _ => false
  | _ => true

def clearsUser : Transition → Bool
  | manual clearUser => clearUser
  | _ => false

/-- The next envelope is the first one of the process. -/
def coldStart : Transition → Bool
  | initial state => state == .foreground
  | foreground coldStart => coldStart
  | _ => false

end Transition

/-- What became of a transition. -/
inductive TransitionOutcome where
  | completed
  /-- There was nothing to do, or it is not allowed now. -/
  | skipped
  /-- The host failed, and everything is as it was. -/
  | failed
  deriving Repr, DecidableEq

def TransitionOutcome.name : TransitionOutcome → String
  | completed => "completed"
  | skipped => "skipped"
  | failed => "failed"

/-- The state of the sessions of a process. -/
structure Session where
  state : ProcessState
  active : Option Envelope
  foregrounds : Word32
  backgrounds : Word32
  /-- A copy of `state` that is looked at first, without waiting for a running transition. -/
  hint : ProcessState
  deriving Repr, DecidableEq

/-- What a call did: its answer, the states after it, the reports it made and what it sent. -/
structure Turn (σ α : Type) where
  result : α
  session : Session
  host : σ
  reports : List Report
  sent : Option (Envelope × SnapshotType)

namespace Session

variable {σ : Type}

/-- A process in this state before its first envelope. -/
def initial (state : ProcessState) : Session := ⟨state, none, 0, 0, state⟩

def foregroundEnvelope? (s : Session) : Option Envelope :=
  s.active.filter fun e => !e.isBackground

def manualEndAllowed (c : Config) (s : Session) (time : Millis) : Bool :=
  match s.foregroundEnvelope? with
  | none => false
  | some e => c.minManualSession.val ≤ (time.since e.start).val

def stay {α : Type} (s : Session) (host : σ) (result : α) (reports : List Report) : Turn σ α :=
  ⟨result, s, host, reports, none⟩

/-- The final form of the running envelope, if there is one. -/
def buildFinal (h : Host σ) (t : Transition) (time : Millis) (s : Session) (host : σ) :
    Except Report (Option Envelope) × σ :=
  match s.active with
  | none => (.ok none, host)
  | some e =>
    let (answer, host) := h.buildFinal ⟨e, time, t.endReason⟩ host
    match answer.outcome BuildError.text with
    | .ok final => (.ok (some final), host)
    | .error cause =>
      (.error ⟨.envelopeBuildFail, "Failed to end envelope " ++ e.id, some cause⟩, host)

/-- Lets the boundary hook clear what belongs to the envelope that ends. -/
def prepare (h : Host σ) (t : Transition) (time : Millis) (host : σ) : Except Report Unit × σ :=
  let (answer, host) := h.prepare time t.clearsUser host
  match answer.outcome BoundaryError.text with
  | .ok () => (.ok (), host)
  | .error cause =>
    (.error ⟨.boundaryResetFail, "Boundary reset failed during " ++ t.name ++ " transition",
      some cause⟩, host)

/-- The number of the next envelope in this state. After the greatest one it begins again at zero, as
it does where sums are not checked. -/
def nextNumber (s : Session) : ProcessState → Word32
  | .foreground => .wrap (s.foregrounds.val + 1) Word32.bounds
  | .background => .wrap (s.backgrounds.val + 1) Word32.bounds

/-- The next envelope, if one follows. There is none in the background unless background activities
    are recorded. -/
def buildInitial (h : Host σ) (c : Config) (t : Transition) (time : Millis) (s : Session)
    (host : σ) : Except Report (Option Envelope) × σ :=
  let target := t.target s.state
  if t.startsEnvelope && (target == .foreground || c.backgroundActivityEnabled) then
    let (answer, host) := h.buildInitial ⟨time, target, t.coldStart, s.nextNumber target⟩ host
    match answer.outcome BuildError.text with
    | .ok next => (.ok (some next), host)
    | .error cause =>
      (.error ⟨.envelopeBuildFail, "Failed to start " ++ target.name ++ " envelope", some cause⟩,
        host)
  else (.ok none, host)

def commit (s : Session) (target : ProcessState) (next : Option Envelope) : Session :=
  { state := target
    active := next
    foregrounds :=
      if next.isSome ∧ target = .foreground then s.nextNumber .foreground else s.foregrounds
    backgrounds :=
      if next.isSome ∧ target = .background then s.nextNumber .background else s.backgrounds
    hint := target }

def transit (h : Host σ) (c : Config) (t : Transition) (time : Millis) (s : Session) (host : σ) :
    Turn σ TransitionOutcome :=
  let isManual := match t with
    | .manual _ => true
    | _ => false
  if t.isRedundant s.state then s.stay host .skipped []
  else if isManual && !s.manualEndAllowed c time then s.stay host .skipped []
  else
    match s.buildFinal h t time host with
    | (.error report, host) => s.stay host .failed [report]
    | (.ok final, host) =>
      match prepare h t time host with
      | (.error report, host) => s.stay host .failed [report]
      | (.ok (), host) =>
        match s.buildInitial h c t time host with
        | (.error report, host) => s.stay host .failed [report]
        | (.ok next, host) =>
          { result := .completed
            session := s.commit (t.target s.state) next
            host
            reports := []
            sent := final.map fun e => (e, t.snapshotType) }

/-- A transition. One that would do nothing is recognised without waiting. -/
def transition (h : Host σ) (c : Config) (t : Transition) (time : Millis) (s : Session)
    (host : σ) : Turn σ TransitionOutcome :=
  if t.isRedundant s.hint then s.stay host .skipped [] else s.transit h c t time host

/-- The session of a new process, in this state at this time. -/
def begin (h : Host σ) (c : Config) (state : ProcessState) (time : Millis) (host : σ) :
    Turn σ TransitionOutcome :=
  (initial state).transition h c (.initial state) time host

/-- Sends a checkpoint of the running envelope, and tells whether there is one. -/
def checkpoint (h : Host σ) (time : Millis) (s : Session) (host : σ) : Turn σ Bool :=
  match s.active with
  | none => s.stay host false []
  | some e =>
    let (answer, host) := h.buildFinal ⟨e, time, .periodic⟩ host
    match answer.outcome BuildError.text with
    | .ok snapshot => ⟨true, s, host, [], some (snapshot, .periodic)⟩
    | .error cause =>
      s.stay host false [⟨.sessionCacheFail, "Failed to snapshot envelope " ++ e.id, some cause⟩]

/-- Sends a checkpoint of the running background activity, if there is one. -/
def checkpointBackground (h : Host σ) (time : Millis) (s : Session) (host : σ) : Turn σ Bool :=
  if s.state == .background && s.active.any Envelope.isBackground then
    s.checkpoint h time host
  else s.stay host false []

end Session

end Outbox
