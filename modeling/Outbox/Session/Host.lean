import Outbox.Diagnostic
import Outbox.Envelope

/-! # The host's part in a session

The host builds the envelopes, and it may hook into the boundary between two of them. Its functions
may fail or panic, and each call may change the state of the host.
-/

namespace Outbox

/-- What an envelope is begun with. -/
structure InitialParams where
  start : Millis
  state : ProcessState
  coldStart : Bool
  /-- The number of envelopes of this state in this process, this one included. -/
  ordinal : Word32
  deriving Repr, DecidableEq

def InitialParams.number (p : InitialParams) : Nat := p.ordinal.toNat

/-- Why an envelope is ended, or checkpointed. -/
inductive EndReason where
  | stateChange
  | manual
  | crash (id : String)
  | periodic
  deriving Repr, DecidableEq

/-- What an envelope is ended with. -/
structure FinalParams where
  envelope : Envelope
  ended : Millis
  reason : EndReason
  deriving Repr, DecidableEq

/-- Why the host built no envelope. -/
structure BuildError where
  message : String
  deriving Repr, DecidableEq

def BuildError.text (e : BuildError) : String := "envelope build failed: " ++ e.message

/-- Why the hook between two envelopes failed. -/
structure BoundaryError where
  message : String
  deriving Repr, DecidableEq

def BoundaryError.text (e : BoundaryError) : String := "boundary reset failed: " ++ e.message

/-- The functions of a host whose state is of type `σ`. -/
structure Host (σ : Type) where
  buildInitial : InitialParams → σ → Attempt BuildError Envelope × σ
  buildFinal : FinalParams → σ → Attempt BuildError Envelope × σ
  prepare : Millis → Bool → σ → Attempt BoundaryError Unit × σ

end Outbox
