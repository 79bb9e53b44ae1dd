import Outbox.Session.Host
import Outbox.Session.Properties
import Outbox.Text.Decimal

/-! # A host that does as it is told

A host for rehearsals. It builds plain envelopes, fails where it was told to, keeps session
properties, and remembers how it was called.
-/

namespace Outbox

/-- How a call of the host is to end. -/
inductive Fault where
  | none
  | error
  | panic
  | staticPanic
  | otherPanic
  deriving Repr, DecidableEq

/-- The text of a panic that always says the same. -/
def Fault.staticText : String := "static panic"

/-- The end of a call that would otherwise give `a`. -/
def Fault.apply {ε α : Type} (f : Fault) (e : ε) (panicText : String) (a : α) : Attempt ε α :=
  match f with
  | .none => .value a
  | .error => .error e
  | .panic => .panicked (.text panicText)
  | .staticPanic => .panicked (.text staticText)
  | .otherPanic => .panicked .other

/-- A call that builds an envelope. -/
inductive BuildCall where
  | initial (params : InitialParams)
  | final (params : FinalParams)
  deriving Repr, DecidableEq

/-- The state of the host. -/
structure Puppet where
  initialFault : Fault
  finalFault : Fault
  boundaryFault : Fault
  nextId : Option String
  nextKind : Option Kind
  /-- How it was called, the latest first. -/
  calls : List BuildCall
  properties : Properties
  deriving Repr, DecidableEq

namespace Puppet

def fresh : Puppet := ⟨.none, .none, .none, none, none, [], .empty Properties.defaultLimit⟩

def reasonText : EndReason → String
  | .stateChange => "state_change"
  | .manual => "manual"
  | .crash id => "crash(" ++ id ++ ")"
  | .periodic => "periodic"

def defaultId (params : InitialParams) : String :=
  let noun := match params.state with
    | .foreground => "session-"
    | .background => "background-"
  noun ++ decimal params.number

def buildInitial (params : InitialParams) (p : Puppet) : Attempt BuildError Envelope × Puppet :=
  let p := { p with calls := .initial params :: p.calls }
  let error : BuildError := ⟨"initial envelope unavailable"⟩
  let id := p.nextId.getD (defaultId params)
  let e : Envelope :=
    { id
      kind := p.nextKind.getD .session
      start := params.start
      ended := none
      state := params.state
      body := Bytes.ofString id }
  let used := { p with nextId := none, nextKind := none }
  match p.initialFault.apply error "initial builder exploded" e with
  | .value e => (.value e, used)
  | other => (other, p)

def buildFinal (params : FinalParams) (p : Puppet) : Attempt BuildError Envelope × Puppet :=
  let p := { p with calls := .final params :: p.calls }
  let error : BuildError := ⟨"final envelope unavailable"⟩
  let text := params.envelope.id ++ "|" ++ reasonText params.reason ++ "|" ++
    decimal params.ended.val
  let e := { params.envelope with ended := some params.ended, body := Bytes.ofString text }
  (p.finalFault.apply error "final builder exploded" e, p)

def prepare (time : Millis) (clearUser : Bool) (p : Puppet) : Attempt BoundaryError Unit × Puppet :=
  match p.boundaryFault.apply (⟨"properties locked"⟩ : BoundaryError) "boundary exploded" () with
  | .value () => (.value (), { p with properties := p.properties.beginEnvelope time clearUser })
  | other => (other, p)

def host : Host Puppet := ⟨buildInitial, buildFinal, prepare⟩

end Puppet

end Outbox
