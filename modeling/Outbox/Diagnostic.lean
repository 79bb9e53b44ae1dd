/-! # Diagnostics

Nothing that fails inside reaches the host. It is reported instead: what went wrong, on what, and
why. `Caught` is what remains of a collaborator's call that ended in a panic.
-/

namespace Outbox

/-- What a report is about. -/
inductive DiagnosticKind where
  | payloadStoreFail
  | payloadLoadFail
  | payloadDeleteFail
  | payloadPruned
  | invalidStorageKey
  | deliveryDataLoss
  | staleDeliveryDropped
  | payloadResurrectionFail
  | envelopeBuildFail
  | boundaryResetFail
  | sessionCacheFail
  deriving Repr, DecidableEq, Inhabited

namespace DiagnosticKind

def all : List DiagnosticKind :=
  [.payloadStoreFail, .payloadLoadFail, .payloadDeleteFail, .payloadPruned, .invalidStorageKey,
    .deliveryDataLoss, .staleDeliveryDropped, .payloadResurrectionFail, .envelopeBuildFail,
    .boundaryResetFail, .sessionCacheFail]

def name : DiagnosticKind → String
  | payloadStoreFail => "payload_store_fail"
  | payloadLoadFail => "payload_load_fail"
  | payloadDeleteFail => "payload_delete_fail"
  | payloadPruned => "payload_pruned"
  | invalidStorageKey => "invalid_storage_key"
  | deliveryDataLoss => "delivery_data_loss"
  | staleDeliveryDropped => "stale_delivery_dropped"
  | payloadResurrectionFail => "payload_resurrection_fail"
  | envelopeBuildFail => "envelope_build_fail"
  | boundaryResetFail => "boundary_reset_fail"
  | sessionCacheFail => "session_cache_fail"

theorem mem_all (k : DiagnosticKind) : k ∈ all := by
  cases k <;> decide

end DiagnosticKind

/-- What a panic carried. -/
inductive Panic where
  | text (message : String)
  | other
  deriving Repr, DecidableEq

def Panic.message : Panic → String
  | text message => message
  | other => "unknown panic payload"

/-- How a call of a collaborator ends. -/
inductive Attempt (ε α : Type) where
  | value (a : α)
  | error (e : ε)
  | panicked (p : Panic)
  deriving Repr, DecidableEq

/-- A panic that was caught. -/
structure Caught where
  message : String
  deriving Repr, DecidableEq

def Caught.text (c : Caught) : String := "panicked: " ++ c.message

/-- What a report gives as its reason. -/
inductive Cause where
  | error (text : String)
  | caught (c : Caught)
  deriving Repr, DecidableEq

def Cause.text : Cause → String
  | error text => text
  | caught c => c.text

namespace Attempt

variable {ε α : Type}

def guard : Attempt Empty α → Except Caught α
  | value a => .ok a
  | panicked p => .error ⟨p.message⟩

def value? : Attempt ε α → Option α
  | value a => some a
  | _ => none

/-- The value of a call, or the reason why there is none. -/
def outcome (describe : ε → String) : Attempt ε α → Except Cause α
  | value a => .ok a
  | error e => .error (.error (describe e))
  | panicked p => .error (.caught ⟨p.message⟩)

end Attempt

/-- One report. -/
structure Report where
  kind : DiagnosticKind
  message : String
  cause : Option Cause
  deriving Repr, DecidableEq

/-- How urgent a log line is. -/
inductive Severity where
  | warn
  | error
  deriving Repr, DecidableEq

def Severity.name : Severity → String
  | warn => "warn"
  | error => "error"

/-- One line of the log. -/
structure LogLine where
  severity : Severity
  text : String
  deriving Repr, DecidableEq

/-- The log line of a report. Making room in a full storage is expected, so it is a warning and
    needs no reason. -/
def Report.logLine (r : Report) : LogLine :=
  let line := "[DIAGNOSTICS] " ++ r.kind.name ++ ": " ++ r.message
  match r.kind, r.cause with
  | .payloadPruned, _ => ⟨.warn, line⟩
  | _, some cause => ⟨.error, line ++ " (cause: " ++ cause.text ++ ")"⟩
  | _, none => ⟨.error, line⟩

end Outbox
