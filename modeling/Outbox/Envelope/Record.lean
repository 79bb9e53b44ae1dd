import Outbox.Envelope
import Outbox.Json.Record

/-! # Stored envelopes

A snapshot on disk is the record of an envelope in JSON.
-/

namespace Outbox.Envelope

def fieldNames : List String :=
  ["id", "kind", "start_time_ms", "end_time_ms", "process_state", "body"]

def toJson (e : Envelope) : Json :=
  .record (fieldNames.zip
    [.ofString e.id, .ofString e.kind.name, .ofInt e.start.val,
      .ofOption (fun t => .ofInt t.val) e.ended, .ofString e.state.name,
      .array (e.body.map fun b => .ofInt b.toNat)])

def ofJson? (j : Json) : Option Envelope :=
  match Json.fields? fieldNames j with
  | some ⟨positional, [id, kind, start, ended, state, body]⟩ => do
    let id ← Json.required? Json.asString? id
    let kind ← Json.required? (Json.asOneOf? Kind.all Kind.name) kind
    let start ← Json.required? Json.asRanged? start
    let ended ← Json.optional? Json.asRanged? positional ended
    let state ← Json.required? (Json.asOneOf? ProcessState.all ProcessState.name) state
    let body ← Json.required? Json.asBytes? body
    pure { id, kind, start, ended, state, body }
  | _ => none

def encode (e : Envelope) : Bytes := e.toJson.render

def decode? (b : Bytes) : Option Envelope := (Json.read? b).bind ofJson?

end Outbox.Envelope
