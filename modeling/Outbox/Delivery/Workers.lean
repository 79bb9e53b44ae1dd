import Outbox.Permits

/-! # Workers

Background jobs run on a fixed number of workers, at least one. A job waits for a worker in the
order in which the jobs came; a job that starts after a delay needs none until the delay is over.
-/

namespace Outbox

/-- What happens to a job. -/
inductive JobEvent (α : Type) where
  | started (job : α)
  | ended (job : α)
  deriving Repr, DecidableEq

/-- The jobs of a number of workers. -/
structure Workers (α : Type) where
  permits : Permits α
  /-- The jobs that start later, with the time at which they will ask for a worker, in the order in
      which they came. -/
  delayed : List (Nat × α)
  /-- The jobs that will end as soon as they run. -/
  brief : List α
  now : Nat
  deriving Repr, DecidableEq

namespace Workers

variable {α : Type} [DecidableEq α]

/-- So many workers, but at least one, without jobs. -/
def ofCount (n : Nat) : Workers α := ⟨.ofCapacity (max n 1), [], [], 0⟩

def alive (w : Workers α) : List α :=
  w.permits.holders ++ w.permits.waiting ++ w.delayed.map (·.2)

def isRunning (w : Workers α) (a : α) : Bool := w.permits.holds a

/-- Takes a job off its worker or out of the waiting line. -/
def depart (w : Workers α) (a : α) : Workers α × List α :=
  let (permits, granted) := w.permits.leave a
  ({ w with permits, brief := w.brief.filter (· ≠ a) }, granted)

/-- Starts the jobs that got a worker, and ends those among them that end at once. -/
def begin : Nat → Workers α → List α → Workers α × List (JobEvent α)
  | 0, w, _ => (w, [])
  | _ + 1, w, [] => (w, [])
  | fuel + 1, w, a :: granted =>
    if a ∈ w.brief then
      let (w, more) := w.depart a
      let (w, events) := begin fuel w (granted ++ more)
      (w, .started a :: .ended a :: events)
    else
      let (w, events) := begin fuel w granted
      (w, .started a :: events)

def line (w : Workers α) : Nat := w.alive.length + 1

def enqueue (w : Workers α) (a : α) : Workers α × List (JobEvent α) :=
  let (permits, granted) := w.permits.request a
  let w := { w with permits }
  begin w.line w granted

/-- Adds a job; a brief one ends as soon as it runs. -/
def spawn (w : Workers α) (a : α) (brief : Bool) : Workers α × List (JobEvent α) :=
  (if brief then { w with brief := a :: w.brief } else w).enqueue a

/-- Adds a job that asks for a worker after a delay. -/
def spawnAfter (w : Workers α) (delay : Nat) (a : α) (brief : Bool) :
    Workers α × List (JobEvent α) :=
  if delay = 0 then w.spawn a brief
  else
    let w := if brief then { w with brief := a :: w.brief } else w
    ({ w with delayed := w.delayed ++ [(w.now + delay, a)] }, [])

/-- A job is done: it ends at once if it runs, and otherwise as soon as it does. -/
def finish (w : Workers α) (a : α) : Workers α × List (JobEvent α) :=
  if w.isRunning a then
    let (w, granted) := w.depart a
    let (w, events) := begin w.line w granted
    (w, .ended a :: events)
  else if a ∈ w.alive then ({ w with brief := a :: w.brief }, [])
  else (w, [])

def abort (w : Workers α) (a : α) : Workers α × List (JobEvent α) :=
  let w := { w with delayed := w.delayed.filter fun d => d.2 ≠ a }
  let (w, granted) := w.depart a
  begin w.line w granted

def nextTime? (w : Workers α) : Option Nat := (w.delayed.map (·.1)).min?

/-- Lets time pass up to a point; each delay ends at its time. -/
def advanceTo : Nat → Workers α → Nat → Workers α × List (JobEvent α)
  | 0, w, _ => (w, [])
  | fuel + 1, w, target =>
    match w.delayed.find? fun d => some d.1 == w.nextTime? with
    | some (time, a) =>
      if time ≤ target then
        let w := { w with delayed := w.delayed.erase (time, a), now := time }
        let (w, first) := w.enqueue a
        let (w, others) := advanceTo fuel w target
        (w, first ++ others)
      else ({ w with now := target }, [])
    | none => ({ w with now := target }, [])

def advance (w : Workers α) (ms : Nat) : Workers α × List (JobEvent α) :=
  advanceTo (w.delayed.length + 1) w (w.now + ms)

end Workers

end Outbox
