import Mathlib.Data.List.Induction
import Outbox.Delivery.RateLimit
import Outbox.Proofs.Backoff

/-! # The pauses of an endpoint

Every number of a rate limit stops at the end of its range: the counter of rejections, the power,
the products and the sum. Each stops at another point, and none of these points shows: the pauses
are the ones that numbers of any size would give, cut at the last moment of the clock. What is
remembered of an endpoint is read off the calls since it was last cleared, so calls about other
endpoints do not matter.
-/

namespace Outbox

/-! ## Calls -/

/-- What is asked of the rate limits, and the clock that they read. -/
inductive LimitCall where
  | reject (e : Endpoint) (retryAfter : Option Word64)
  | clear (e : Endpoint)
  | clock (now : Millis)
  deriving Repr, DecidableEq

/-- The endpoint that a call is about. -/
def LimitCall.endpoint? : LimitCall → Option Endpoint
  | reject e _ | clear e => some e
  | clock _ => none

/-- The rate limits and the time that their clock shows. -/
structure Limiter where
  limits : RateLimits
  now : Millis
  deriving Repr, DecidableEq

namespace Limiter

/-- Limits that no endpoint has run into. -/
def fresh (first longest : Word64) (now : Millis) : Limiter :=
  ⟨⟨first, longest, .const .initial⟩, now⟩

def call (l : Limiter) : LimitCall → Limiter
  | .reject e retryAfter => { l with limits := (l.limits.reject e retryAfter l.now).1 }
  | .clear e => { l with limits := l.limits.clear e }
  | .clock now => { l with now := now }

def run (l : Limiter) (calls : List LimitCall) : Limiter := calls.foldl call l

theorem run_concat (l : Limiter) (calls : List LimitCall) (c : LimitCall) :
    l.run (calls ++ [c]) = (l.run calls).call c := by
  simp [run]

/-- What is remembered of an endpoint. -/
def state (l : Limiter) (e : Endpoint) : RateState := l.limits.states.get e

/-- A call leaves what is remembered of the other endpoints. -/
theorem state_call_of_other {l : Limiter} {c : LimitCall} {e : Endpoint}
    (other : c.endpoint? ≠ some e) : (l.call c).state e = l.state e := by
  cases c with
  | reject f | clear f =>
    exact PerEndpoint.get_set_of_ne _ _ fun same => other (congrArg some same.symm)
  | clock => rfl

end Limiter

/-! ## What the calls tell -/

/-- A rejection: when it came, and the seconds that the collector named. -/
structure Rejection where
  time : Millis
  retryAfter : Option Word64
  deriving Repr, DecidableEq

namespace Rejection

/-- The pause after the `k`-th rejection in a row: the one that the collector named unless it is
zero, or else the first one doubled with every further rejection, up to the longest. -/
def pause (first longest : Word64) (r : Rejection) (k : Nat) : Int :=
  match r.retryAfter.filter (·.val ≠ 0) with
  | some seconds => 1000 * seconds.val
  | none => min (first.val * 2 ^ (k - 1)) longest.val

/-- The end of this pause, at the last moment of the clock if that comes first. -/
def deadline (first longest : Word64) (r : Rejection) (k : Nat) : Int :=
  min (2 ^ 63 - 1) (r.time.val + min (2 ^ 63 - 1) (r.pause first longest k))

end Rejection

/-- What the clock shows after these calls, the latest of which comes first. -/
def clockAfter (start : Millis) : List LimitCall → Millis
  | [] => start
  | .clock now :: _ => now
  | _ :: past => clockAfter start past

/-- The rejections of an endpoint since it was last cleared, by calls the latest of which comes
first. -/
def streak (start : Millis) (e : Endpoint) : List LimitCall → List Rejection
  | [] => []
  | .reject f retryAfter :: past =>
    if f = e then ⟨clockAfter start past, retryAfter⟩ :: streak start e past
    else streak start e past
  | .clear f :: past => if f = e then [] else streak start e past
  | .clock _ :: past => streak start e past

/-! ## Pauses -/

namespace RateLimits

variable {l : RateLimits} {e : Endpoint} {retryAfter : Option Word64} {now : Millis}

/-- The pause after a rejection is the one of its number in a row, though the counter stops. -/
theorem val_cooldown (l : RateLimits) (r : Rejection) {k : Nat} {rejections : Word32}
    (counted : rejections.val = min (k : Int) (2 ^ 32 - 1)) :
    min (2 ^ 64 - 1) (r.pause l.defaultCooldown l.maxCooldown k) =
      (l.cooldown rejections r.retryAfter).val := by
  have doubled : (Config.backoff l.defaultCooldown l.maxCooldown rejections).val =
      min (l.defaultCooldown.val * 2 ^ (k - 1)) l.maxCooldown.val := by
    rw [Config.val_backoff]
    rcases Nat.lt_or_ge k (2 ^ 32) with few | many
    · rw [show rejections.toNat = k by unfold Ranged.toNat; omega]
    · exact Config.min_doubled_of_le _ _ (by unfold Ranged.toNat; omega)
        (by unfold Ranged.toNat; omega)
  have limit := l.maxCooldown.le_hi
  obtain ⟨time, retryAfter⟩ := r
  cases retryAfter with
  | none =>
    show min _ (min _ _) = (Config.backoff _ _ _).val
    rw [doubled]
    omega
  | some seconds =>
    unfold Rejection.pause cooldown
    by_cases zero : seconds.val = 0
    · simp only [Option.filter, zero, ne_eq, not_true_eq_false, decide_false, if_true]
      rw [doubled]
      show min _ (min _ _) = _
      omega
    · simp only [Option.filter, zero, ne_eq, not_false_eq_true, decide_true, if_true, if_false]
      rw [Config.val_product, show (1000 : Word64).val = 1000 from rfl]
      omega

/-- The pause that a rejection begins ends when it would with numbers of any size. -/
theorem val_deadline (l : RateLimits) (e : Endpoint) (r : Rejection) {k : Nat}
    (counted : (l.states.get e).rejections.val = min (k : Int) (2 ^ 32 - 1)) :
    (l.reject e r.retryAfter r.time).2.val =
      r.deadline l.defaultCooldown l.maxCooldown (k + 1) := by
  have stepped : (Ranged.clamp ((l.states.get e).rejections.val + 1) Word32.bounds : Word32).val =
      min ((k + 1 : Nat) : Int) (2 ^ 32 - 1) := by
    rw [Ranged.val_clamp]
    omega
  have pause := l.val_cooldown r stepped
  have nonneg := (l.cooldown (.clamp ((l.states.get e).rejections.val + 1) Word32.bounds)
    r.retryAfter).lo_le
  have least := r.time.lo_le
  unfold reject Rejection.deadline Millis.shift
  simp only [Ranged.val_clamp] at pause nonneg ⊢
  omega

end RateLimits

namespace Limiter

variable {l : Limiter} {first longest : Word64} {e : Endpoint} {past : List Rejection}

/-- What is remembered of an endpoint tells its rejections in a row, the latest of which comes
first. -/
structure Tells (l : Limiter) (first longest : Word64) (e : Endpoint) (past : List Rejection) :
    Prop where
  cooldown : l.limits.defaultCooldown = first ∧ l.limits.maxCooldown = longest
  counted : (l.state e).rejections.val = min (past.length : Int) (2 ^ 32 - 1)
  deadline : (l.state e).deadline?.map Ranged.val =
    past.head?.map fun r => r.deadline first longest past.length

theorem tells_fresh (first longest : Word64) (now : Millis) (e : Endpoint) :
    (fresh first longest now).Tells first longest e [] where
  cooldown := ⟨rfl, rfl⟩
  counted := by simp [state, fresh]; rfl
  deadline := by simp [state, fresh]; rfl

theorem Tells.reject (tells : l.Tells first longest e past) (retryAfter : Option Word64) :
    (l.call (.reject e retryAfter)).Tells first longest e (⟨l.now, retryAfter⟩ :: past) where
  cooldown := tells.cooldown
  counted := by
    have counted := tells.counted
    simp only [state, call, RateLimits.reject, PerEndpoint.get_set_self, Ranged.val_clamp] at *
    rw [List.length_cons]
    omega
  deadline := by
    obtain ⟨rfl, rfl⟩ := tells.cooldown
    have ends := l.limits.val_deadline e ⟨l.now, retryAfter⟩ tells.counted
    simpa [state, call, RateLimits.reject] using ends

theorem Tells.clear (tells : l.Tells first longest e past) :
    (l.call (.clear e)).Tells first longest e [] where
  cooldown := tells.cooldown
  counted := by simp [state, call, RateLimits.clear]; rfl
  deadline := by simp [state, call, RateLimits.clear]; rfl

theorem Tells.other (tells : l.Tells first longest e past) {c : LimitCall}
    (other : c.endpoint? ≠ some e) : (l.call c).Tells first longest e past where
  cooldown := by
    cases c <;> exact tells.cooldown
  counted := by rw [state_call_of_other other, tells.counted]
  deadline := by rw [state_call_of_other other, tells.deadline]

theorem now_run (first longest : Word64) (start : Millis) (calls : List LimitCall) :
    ((fresh first longest start).run calls).now = clockAfter start calls.reverse := by
  induction calls using List.reverseRecOn with
  | nil => rfl
  | append_singleton calls c ih =>
    rw [run_concat, List.reverse_concat]
    cases c with
    | clock => rfl
    | reject | clear => exact ih

theorem tells_run (first longest : Word64) (start : Millis) (e : Endpoint)
    (calls : List LimitCall) : ((fresh first longest start).run calls).Tells first longest e
      (streak start e calls.reverse) := by
  induction calls using List.reverseRecOn with
  | nil => exact tells_fresh first longest start e
  | append_singleton calls c ih =>
    rw [run_concat, List.reverse_concat]
    cases c with
    | reject f retryAfter =>
      rw [streak]
      split
      case isTrue here =>
        rw [here, ← now_run first longest]
        exact ih.reject retryAfter
      case isFalse other => exact ih.other fun same => other (Option.some.inj same)
    | clear f =>
      rw [streak]
      split
      case isTrue here =>
        rw [here]
        exact ih.clear
      case isFalse other => exact ih.other fun same => other (Option.some.inj same)
    | clock now => exact ih.other (by simp [LimitCall.endpoint?])

theorem Tells.limitedUntil?_eq_some_iff (tells : l.Tells first longest e past) {now u : Millis} :
    l.limits.limitedUntil? e now = some u ↔ ∃ r, past.head? = some r ∧
      u.val = r.deadline first longest past.length ∧ now.val < u.val := by
  have deadline := tells.deadline
  unfold state at deadline
  unfold RateLimits.limitedUntil?
  rw [Option.filter_eq_some_iff, decide_eq_true_iff]
  constructor
  · rintro ⟨held, later⟩
    rw [held, Option.map_some, eq_comm, Option.map_eq_some_iff] at deadline
    obtain ⟨r, latest, ends⟩ := deadline
    exact ⟨r, latest, ends.symm, later⟩
  · rintro ⟨r, latest, ends, later⟩
    rw [latest, Option.map_some, Option.map_eq_some_iff] at deadline
    obtain ⟨v, held, same⟩ := deadline
    obtain rfl : v = u := Ranged.ext (same.trans ends.symm)
    exact ⟨held, later⟩

theorem Tells.isLimited_iff (tells : l.Tells first longest e past) {now : Millis} :
    l.limits.isLimited e now = true ↔ ∃ r, past.head? = some r ∧
      now.val < r.deadline first longest past.length := by
  rw [RateLimits.isLimited, Option.isSome_iff_exists]
  simp only [tells.limitedUntil?_eq_some_iff]
  constructor
  · rintro ⟨u, r, latest, ends, later⟩
    exact ⟨r, latest, ends ▸ later⟩
  · rintro ⟨r, latest, later⟩
    have deadline := tells.deadline
    rw [latest, Option.map_some, Option.map_eq_some_iff] at deadline
    obtain ⟨u, _, ends⟩ := deadline
    exact ⟨u, r, latest, ends, ends ▸ later⟩

end Limiter

/-- The pauses of an endpoint over any calls, each of which can be followed by one more rejection.
It is paused until the deadline of its last rejection, if there is one since it was cleared. This
deadline is formed of numbers of any size, and none of the limits on the way to it shows. The
counter, of which one is subtracted to find the number of doublings, is never zero then, and a call
that is not about the endpoint changes nothing for it. -/
theorem pauses_as_unbounded (first longest : Word64) (start : Millis) (calls : List LimitCall)
    (e : Endpoint) :
    let l := (Limiter.fresh first longest start).run calls
    let past := streak start e calls.reverse
    (∀ now : Millis, l.limits.isLimited e now = true ↔ ∃ r, past.head? = some r ∧
      now.val < r.deadline first longest past.length) ∧
    (∀ now u : Millis, l.limits.limitedUntil? e now = some u ↔ ∃ r, past.head? = some r ∧
      u.val = r.deadline first longest past.length ∧ now.val < u.val) ∧
    (∀ retryAfter : Option Word64, (l.limits.reject e retryAfter l.now).2.val =
        (⟨l.now, retryAfter⟩ : Rejection).deadline first longest (past.length + 1) ∧
      1 ≤ ((l.limits.reject e retryAfter l.now).1.states.get e).rejections.val) ∧
    ∀ c : LimitCall, c.endpoint? ≠ some e → (l.call c).state e = l.state e := by
  intro l past
  have tells : l.Tells first longest e past := Limiter.tells_run first longest start e calls
  refine ⟨fun now => tells.isLimited_iff, fun now u => tells.limitedUntil?_eq_some_iff,
    fun retryAfter => ⟨?_, ?_⟩, fun c other => Limiter.state_call_of_other other⟩
  · obtain ⟨least, most⟩ := tells.cooldown
    rw [← least, ← most]
    exact l.limits.val_deadline e ⟨l.now, retryAfter⟩ tells.counted
  · have counted : ((l.call (.reject e retryAfter)).state e).rejections.val = _ :=
      (tells.reject retryAfter).counted
    rw [List.length_cons] at counted
    show 1 ≤ ((l.call (.reject e retryAfter)).state e).rejections.val
    omega

/-- A rejection for which the collector named a pause counts like any other: the pause after the
next one is doubled. -/
example :
    let l := (Limiter.fresh 1000 5000 0).run [.reject .logs (some 7), .reject .logs none]
    l.limits.limitedUntil? .logs 0 = some 2000 := by decide

end Outbox
