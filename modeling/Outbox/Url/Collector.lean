import Outbox.Delivery.Response
import Outbox.Endpoint
import Outbox.Url

/-! # Where the collector is

The endpoints of a collector lie below its address. The address is taken as a folder, whether or
not its text ends with a slash.
-/

namespace Outbox

/-- A collector. -/
structure Collector where
  /-- The address that the endpoints lie below. -/
  base : Url
  deriving DecidableEq

namespace Collector

def asFolder (text : String) : String :=
  if text.toList.getLast? = some '/' then text else text ++ "/"

def ofBase (text : String) : Except TransportError Collector :=
  match Url.parse (asFolder text) with
  | .ok base => .ok ⟨base⟩
  | .error e => .error (.invalidUrl (text ++ ": " ++ e.message))

def url (c : Collector) (e : Endpoint) : Except TransportError Url :=
  match c.base.resolve e.path with
  | .ok u => .ok u
  | .error error => .error (.invalidUrl (e.path ++ ": " ++ error.message))

end Collector

end Outbox
