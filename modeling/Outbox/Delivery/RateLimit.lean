import Outbox.Config
import Outbox.Endpoint

/-! # Rate limits

An endpoint that was sent too much is left alone for a while. The collector may say for how long;
otherwise the pause doubles with every rejection until a request goes through again.
-/

namespace Outbox

/-- What is remembered of one endpoint. -/
structure RateState where
  deadline? : Option Millis
  /-- The number of rejections since the last request that went through. -/
  rejections : Word32
  deriving Repr, DecidableEq

def RateState.initial : RateState := ⟨none, 0⟩

/-- The rate limits of all endpoints. -/
structure RateLimits where
  defaultCooldown : Word64
  maxCooldown : Word64
  states : PerEndpoint RateState
  deriving Repr, DecidableEq

namespace RateLimits

def ofConfig (c : Config) : RateLimits :=
  ⟨c.rateLimitDefaultCooldown, c.rateLimitMaxCooldown, .const .initial⟩

/-- The end of the pause of an endpoint, if it is not over. -/
def limitedUntil? (l : RateLimits) (e : Endpoint) (now : Millis) : Option Millis :=
  (l.states.get e).deadline?.filter fun u => now.val < u.val

def isLimited (l : RateLimits) (e : Endpoint) (now : Millis) : Bool :=
  (l.limitedUntil? e now).isSome

/-- The pause after a rejection, which is the one with this number in a row. A pause of zero
    seconds counts as none. -/
def cooldown (l : RateLimits) (rejections : Word32) : Option Word64 → Word64
  | some s =>
    if s.val = 0 then Config.backoff l.defaultCooldown l.maxCooldown rejections
    else Config.product s 1000
  | none => Config.backoff l.defaultCooldown l.maxCooldown rejections

/-- Notes a rejection. The end of the pause is returned. -/
def reject (l : RateLimits) (e : Endpoint) (retryAfter : Option Word64) (now : Millis) :
    RateLimits × Millis :=
  let rejections : Word32 := .clamp ((l.states.get e).rejections.val + 1) Word32.bounds
  let pause : Millis := .clamp (l.cooldown rejections retryAfter).val Millis.bounds
  let deadline := now.shift pause.val
  ({ l with states := l.states.set e ⟨some deadline, rejections⟩ }, deadline)

def clear (l : RateLimits) (e : Endpoint) : RateLimits :=
  { l with states := l.states.set e .initial }

end RateLimits

end Outbox
