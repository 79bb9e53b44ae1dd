import Outbox.Ranged
import Outbox.Text.Blank

/-! # Session properties

Named values that go with the envelopes. Temporary ones belong to one envelope and are cleared when
the next one begins; permanent ones stay until they are removed. A name has at most one value, and
the number of names is limited.
-/

namespace Outbox

abbrev Values := List (String × String)

namespace Values

def has (v : Values) (key : String) : Bool := v.any fun p => p.1 == key

def without (v : Values) (key : String) : Values := v.filter fun p => p.1 != key

end Values

/-- The properties of a session. -/
structure Properties where
  limit : Nat
  temporary : Values
  permanent : Values
  user : Option String
  lastBoundary : Option Millis
  deriving Repr, DecidableEq

namespace Properties

def defaultLimit : Nat := 100

def empty (limit : Nat) : Properties := ⟨limit, [], [], none, none⟩

def size (p : Properties) : Nat := p.temporary.length + p.permanent.length

def contains (p : Properties) (key : String) : Bool :=
  p.temporary.has key || p.permanent.has key

/-- Sets a property. White space around the name does not count. Refused is a name that is blank,
    and one that is new when there is no room. -/
def add (p : Properties) (key value : String) (permanent : Bool) : Properties × Bool :=
  let key := Text.trim key
  if key.isEmpty then (p, false)
  else if !p.contains key && p.limit ≤ p.size then (p, false)
  else
    let temporary := p.temporary.without key
    let others := p.permanent.without key
    if permanent then ({ p with temporary, permanent := others ++ [(key, value)] }, true)
    else ({ p with temporary := temporary ++ [(key, value)], permanent := others }, true)

/-- Removes a property, and tells whether there was one. -/
def remove (p : Properties) (key : String) : Properties × Bool :=
  ({ p with temporary := p.temporary.without key, permanent := p.permanent.without key },
    p.contains key)

def get? (p : Properties) (key : String) : Option String :=
  match p.permanent.lookup key with
  | some value => some value
  | none => p.temporary.lookup key

def all (p : Properties) : Values := p.permanent ++ p.temporary

def setUser (p : Properties) (user : Option String) : Properties := { p with user }

/-- Clears what belongs to the envelope that ends, and the user if that is asked for. -/
def beginEnvelope (p : Properties) (time : Millis) (clearUser : Bool) : Properties :=
  { p with temporary := []
           user := if clearUser then none else p.user
           lastBoundary := some time }

end Properties

end Outbox
