import Outbox.Endpoint
import Outbox.Permits

/-! # Lanes

Each endpoint has one lane. A task that wants to send there waits for the lane and keeps it until it
ends, so that two tasks never send to one endpoint at once, while different endpoints do not wait
for each other.
-/

namespace Outbox

/-- The tasks that hold lanes or wait for them. -/
structure Lanes (α : Type) where
  lanes : PerEndpoint (Permits α)
  /-- The tasks that have not ended, with the endpoint of each. -/
  alive : List (α × Endpoint)
  /-- The waiting tasks that will end as soon as they have their lane. -/
  leaving : List α
  deriving Repr, DecidableEq

namespace Lanes

variable {α : Type} [DecidableEq α]

def empty : Lanes α := ⟨.const (.ofCapacity 1), [], []⟩

/-- The task has ended. Whoever got its lane is returned. -/
def depart (l : Lanes α) (a : α) (e : Endpoint) : Lanes α × List α :=
  let (lane, granted) := (l.lanes.get e).leave a
  ({ lanes := l.lanes.set e lane
     alive := l.alive.filter fun t => t.1 ≠ a
     leaving := l.leaving.filter (· ≠ a) }, granted)

/-- Lets those end that wanted to, once they got their lane. All who got the lane are returned in
    order. -/
def pass (e : Endpoint) : Nat → Lanes α → List α → Lanes α × List α
  | 0, l, granted => (l, granted)
  | _ + 1, l, [] => (l, [])
  | fuel + 1, l, a :: granted =>
    if a ∈ l.leaving then
      let (l, more) := l.depart a e
      let (l, others) := pass e fuel l (granted ++ more)
      (l, a :: others)
    else
      let (l, others) := pass e fuel l granted
      (l, a :: others)

def line (l : Lanes α) : Nat := l.alive.length + 1

/-- A task begins and wants the lane of an endpoint. -/
def acquire (l : Lanes α) (a : α) (e : Endpoint) : Lanes α × List α :=
  let (lane, granted) := (l.lanes.get e).request a
  let l := { l with lanes := l.lanes.set e lane, alive := l.alive ++ [(a, e)] }
  pass e l.line l granted

/-- A task is to end: at once if it holds its lane, and otherwise as soon as it does. -/
def release (l : Lanes α) (a : α) : Lanes α × List α :=
  match l.alive.lookup a with
  | none => (l, [])
  | some e =>
    if (l.lanes.get e).holds a then
      let (l, granted) := l.depart a e
      pass e l.line l granted
    else ({ l with leaving := a :: l.leaving }, [])

def cancel (l : Lanes α) (a : α) : Lanes α × List α :=
  match l.alive.lookup a with
  | none => (l, [])
  | some e =>
    let (l, granted) := l.depart a e
    pass e l.line l granted

end Lanes

end Outbox
