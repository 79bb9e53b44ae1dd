/-! # Permits

A fixed number of permits is handed out in the order of the requests. A permit that comes back goes
to the first one that waits. A request that is given up, or a holder that is gone, does not keep
others waiting.
-/

namespace Outbox

/-- The holders and the waiting line of a number of permits. -/
structure Permits (α : Type) where
  capacity : Nat
  holders : List α
  /-- Who waits for one, in order. -/
  waiting : List α
  deriving Repr, DecidableEq

namespace Permits

variable {α : Type} [DecidableEq α]

def ofCapacity (n : Nat) : Permits α := ⟨n, [], []⟩

/-- Gives out permits while there are some left and someone waits. The second part lists who got
    one, in order. -/
def grant (p : Permits α) : Permits α × List α :=
  let granted := p.waiting.take (p.capacity - p.holders.length)
  ({ p with holders := p.holders ++ granted
            waiting := p.waiting.drop (p.capacity - p.holders.length) }, granted)

def request (p : Permits α) (a : α) : Permits α × List α :=
  ({ p with waiting := p.waiting ++ [a] } : Permits α).grant

def leave (p : Permits α) (a : α) : Permits α × List α :=
  ({ p with holders := p.holders.erase a, waiting := p.waiting.erase a } : Permits α).grant

def holds (p : Permits α) (a : α) : Bool := a ∈ p.holders

end Permits

end Outbox
