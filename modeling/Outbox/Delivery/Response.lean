import Outbox.Bytes
import Outbox.Ranged
import Outbox.Text.Blank
import Outbox.Text.Decimal

/-! # Answers of the collector

What comes back over the wire, and the few things that it can mean for a delivery.
-/

namespace Outbox

/-- An answer over the wire. -/
structure Response where
  status : Word16
  /-- The headers with their names in lower case, the latest first. -/
  headers : List (String × String)
  body : Bytes
  deriving Repr, DecidableEq

namespace Response

def lowercase (name : String) : String := String.ofList (name.toList.map Char.toLower)

def ofStatus (status : Word16) : Response := ⟨status, [], []⟩

/-- The answer with one more header, in place of an earlier one of the same name. -/
def withHeader (r : Response) (name value : String) : Response :=
  { r with headers := (lowercase name, value) :: r.headers }

/-- The value of a header; its name may be in any case. -/
def header? (r : Response) (name : String) : Option String := r.headers.lookup (lowercase name)

end Response

/-- Why there is no answer. -/
inductive TransportError where
  | timeout
  | connection (message : String)
  | invalidUrl (message : String)
  | other (message : String)
  deriving Repr, DecidableEq

def TransportError.message : TransportError → String
  | timeout => "request timed out"
  | connection message => "connection failed: " ++ message
  | invalidUrl message => "invalid url: " ++ message
  | other message => "transport error: " ++ message

/-- What an answer means. -/
inductive Answer where
  | success (body : Bytes) (etag : Option String)
  | notModified
  | payloadTooLarge
  /-- Too much was sent; the collector may say for how many seconds to wait. -/
  | tooManyRequests (retryAfter : Option Word64)
  | failure (status : Word16)
  | incomplete (error : TransportError)
  deriving Repr, DecidableEq

namespace Answer

def seconds? (value : String) : Option Word64 :=
  Text.Decimal.readRanged? (Text.trim value).toList

def classify : Except TransportError Response → Answer
  | .error e => incomplete e
  | .ok r =>
    if 200 ≤ r.status.val ∧ r.status.val ≤ 299 then success r.body (r.header? "etag")
    else if r.status.val = 304 then notModified
    else if r.status.val = 413 then payloadTooLarge
    else if r.status.val = 429 then
      tooManyRequests ((r.header? "retry-after").bind seconds?)
    else failure r.status

def isSuccess : Answer → Bool
  | success _ _ => true
  | _ => false

end Answer

end Outbox
