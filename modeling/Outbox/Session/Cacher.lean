/-! # Periodic checkpoints

A timer that asks for a checkpoint of the running envelope once in every period, so that a process
that is killed leaves recent data behind. A period of zero makes no sense, and the timer never runs.
-/

namespace Outbox

/-- The timer of the periodic checkpoints. -/
structure Cacher where
  /-- The period in milliseconds. -/
  period : Nat
  /-- The time of the next checkpoint, while the timer runs. -/
  next : Option Nat
  deriving Repr, DecidableEq

namespace Cacher

def start (period now : Nat) : Cacher :=
  ⟨period, if period = 0 then none else some (now + period)⟩

def stop (c : Cacher) : Cacher := { c with next := none }

def isRunning (c : Cacher) : Bool := c.next.isSome

def isDue (c : Cacher) (now : Nat) : Bool := c.next.any fun t => t ≤ now

def tick (c : Cacher) : Cacher := { c with next := c.next.map (· + c.period) }

end Cacher

end Outbox
