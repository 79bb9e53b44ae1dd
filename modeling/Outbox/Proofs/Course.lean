import Outbox.Delivery.Service
import Outbox.Proofs.Outline

/-! # The course of a replay

What a replay of an endpoint comes to if nothing else goes on there, as a recursion over its
deliveries and the replies of the collector. The recursion knows nothing of tasks, lanes and files.
-/

namespace Outbox

/-- It tells that a delivery was accepted. -/
def Happening.isAcceptance : Happening → Bool
  | event (.delivered _ _) => true
  | _ => false

/-- What comes back for a post. -/
abbrev PostResult := Except TransportError Response

/-- What a reply means for the delivery that was sent. -/
inductive Ruling where
  | accepted
  /-- The endpoint has to be left alone, for some seconds if the collector says so. -/
  | limited (retryAfter : Option Word64)
  | refused (reason : DropReason)
  | failed
  deriving Repr, DecidableEq

def Ruling.ofReply : PostResult → Ruling
  | .error _ => failed
  | .ok r =>
    if 200 ≤ r.status.val ∧ r.status.val ≤ 299 then accepted
    else if r.status.val = 429 then limited ((r.header? "retry-after").bind Answer.seconds?)
    else if r.status.val = 413 then refused .payloadTooLarge
    else if 400 ≤ r.status.val ∧ r.status.val ≤ 499 then refused (.rejected r.status)
    else failed

/-- What a replay comes to. -/
structure Course where
  /-- What happens, in order. -/
  news : List Happening
  /-- The deliveries that are left in the queue. -/
  left : List Pending
  rate : RateState
  /-- The time of the next replay that is planned. -/
  planned : Option Millis
  /-- The number of accepted deliveries, once the replay has ended. It does not end while a post is
      unanswered. -/
  returned : Option Nat
  deriving Repr, DecidableEq

namespace Course

/-- First these things happen. -/
def tell (ns : List Happening) (c : Course) : Course := { c with news := ns ++ c.news }

/-- So many deliveries were accepted before. -/
def plus (n : Nat) (c : Course) : Course := { c with returned := c.returned.map (n + ·) }

/-- How a delivery is given up. -/
def giveUp (e : Endpoint) (p : Pending) (reason : DropReason) (c : Course) : Course :=
  c.tell [.report (.drop p reason), .event (.dropped e p.id reason)]

variable (c : Course)

@[simp]
theorem tell_tell (ms ns : List Happening) : (c.tell ms).tell ns = c.tell (ns ++ ms) := by
  simp [tell]

@[simp]
theorem plus_zero : c.plus 0 = c := by
  simp [plus]

@[simp]
theorem plus_plus (m n : Nat) : (c.plus m).plus n = c.plus (n + m) := by
  simp [plus, Function.comp_def, Nat.add_assoc]

@[simp]
theorem plus_tell (ns : List Happening) (n : Nat) : (c.tell ns).plus n = (c.plus n).tell ns := rfl

end Course

/-- The earliest of the planned replay and one at this time. -/
def sooner (planned : Option Millis) (time : Millis) : Option Millis :=
  if planned.any fun t => t.val ≤ time.val then planned else some time

/-- What a replay goes by. -/
structure Setting where
  clock : Millis
  maxAge : Millis
  maxRetries : Word32
  /-- The time of the next attempt after so many failures. -/
  retryTime : Word32 → Millis
  /-- The pause after so many rejections in a row, if the collector asks for this one. -/
  pause : Word32 → Option Word64 → Word64

namespace Setting

variable (k : Setting) (e : Endpoint) (planned : Option Millis)

/-- The delivery is too old, or was tried too often. -/
def Stale (p : Pending) : Prop :=
  k.maxAge.val < (k.clock.since p.created).val ∨ k.maxRetries.val ≤ p.retries.val

instance (p : Pending) : Decidable (k.Stale p) := inferInstanceAs (Decidable (_ ∨ _))

/-- The number of rejections in a row after one more. -/
def rejections (rate : RateState) : Word32 := .clamp (rate.rejections.val + 1) Word32.bounds

/-- The end of the pause after one more rejection. -/
def deadline (rate : RateState) (retryAfter : Option Word64) : Millis :=
  let pause : Millis := .clamp (k.pause (rejections rate) retryAfter).val Millis.bounds
  k.clock.shift pause.val

/-- The end of the pause, if it is not over. -/
def limitedUntil? (rate : RateState) : Option Millis :=
  rate.deadline?.filter fun u => k.clock.val < u.val

/-- A delivery is left in the queue, and the next replay is for this time at the latest. -/
def leave (p : Pending) (ps : List Pending) (rate : RateState) (reason : QueueReason)
    (time : Millis) : Course where
  news := [.event (.queued e p.id reason)]
  left := p :: ps
  rate
  planned := sooner planned time
  returned := some 0

/-- After a failed attempt was counted; `next` tells how the replay goes on with the others. -/
def afterFailure (p : Pending) (ps : List Pending) (rate : RateState)
    (next : RateState → Course) : Course :=
  if k.maxRetries.val ≤ p.retries.val then (next rate).giveUp e p .stale
  else leave e planned p ps rate .retryScheduled (k.retryTime p.retries)

/-- After the reply for a delivery. -/
def afterReply (p : Pending) (ps : List Pending) (rate : RateState) (next : RateState → Course) :
    Ruling → Course
  | .accepted => ((next .initial).plus 1).tell [.event (.delivered e p.id)]
  | .limited retryAfter =>
    let deadline := k.deadline rate retryAfter
    (leave e planned p ps ⟨some deadline, rejections rate⟩ .rateLimited deadline).tell
      [.event (.rateLimited e deadline)]
  | .refused reason => (next rate).giveUp e p reason
  | .failed => k.afterFailure e planned (p.failed k.clock) ps rate next

/-- After a delivery was posted. Without a reply the post stays unanswered. -/
def afterPost (p : Pending) (ps : List Pending) (rate : RateState)
    (next : RateState → List PostResult → Course) : List PostResult → Course
  | [] => ⟨[], p :: ps, rate, planned, none⟩
  | reply :: replies =>
    k.afterReply e planned p ps rate (fun rate => next rate replies) (.ofReply reply)

/-- The course of a replay of these deliveries, the oldest first, with these replies. -/
def course : List Pending → RateState → List PostResult → Course
  | [], rate, _ => ⟨[], [], rate, planned, some 0⟩
  | p :: ps, rate, replies =>
    if k.Stale p then (course ps rate replies).giveUp e p .stale
    else (k.afterPost e planned p ps rate (course ps) replies).tell
      [.post e p.id k.clock p.payload]

/-- The course of a replay while the endpoint has to be left alone. -/
def held (rate : RateState) (until_ : Millis) : List Pending → Course
  | [] => ⟨[], [], rate, planned, some 0⟩
  | p :: ps =>
    if k.Stale p then (held rate until_ ps).giveUp e p .stale
    else leave e planned p ps rate .rateLimited until_

/-- The course of a replay, whether the endpoint has to be left alone or not. -/
def replay (ps : List Pending) (rate : RateState) (replies : List PostResult) : Course :=
  match k.limitedUntil? rate with
  | some until_ => k.held e planned rate until_ ps
  | none => k.course e planned ps rate replies

variable {k e planned} {p : Pending} {ps : List Pending} {rate : RateState}
  {replies : List PostResult}

theorem replay_of_open (unlimited : k.limitedUntil? rate = none) :
    k.replay e planned ps rate replies = k.course e planned ps rate replies := by
  rw [replay, unlimited]

theorem replay_nil : k.replay e planned [] rate replies = ⟨[], [], rate, planned, some 0⟩ := by
  unfold replay
  split <;> rfl

theorem replay_of_stale (stale : k.Stale p) : k.replay e planned (p :: ps) rate replies =
    (k.replay e planned ps rate replies).giveUp e p .stale := by
  unfold replay
  split
  · exact if_pos stale
  · exact if_pos stale

theorem replay_of_limited (fresh : ¬k.Stale p) {until_ : Millis}
    (limited : k.limitedUntil? rate = some until_) :
    k.replay e planned (p :: ps) rate replies = leave e planned p ps rate .rateLimited until_ := by
  rw [replay, limited]
  exact if_neg fresh

theorem course_of_fresh (fresh : ¬k.Stale p) : k.course e planned (p :: ps) rate replies =
    (k.afterPost e planned p ps rate (k.course e planned ps) replies).tell
      [.post e p.id k.clock p.payload] :=
  if_neg fresh

/-- With a reply for each delivery a replay ends. -/
theorem course_returns (enough : ps.length ≤ replies.length) :
    (k.course e planned ps rate replies).returned.isSome = true := by
  induction ps generalizing rate replies with
  | nil => rfl
  | cons p ps ih =>
    by_cases stale : k.Stale p
    case pos =>
      rw [course, if_pos stale]
      exact ih (Nat.le_of_succ_le enough)
    rw [course_of_fresh stale]
    cases replies with
    | nil => simp at enough
    | cons reply replies =>
      have next {rate : RateState} :
          (k.course e planned ps rate replies).returned.isSome = true :=
        ih (Nat.le_of_succ_le_succ enough)
      show (k.afterReply e planned p ps rate _ (.ofReply reply)).returned.isSome = true
      cases Ruling.ofReply reply with
      | accepted => simpa [afterReply, Course.tell, Course.plus] using next
      | limited retryAfter => rfl
      | refused reason => exact next
      | failed =>
        rw [afterReply, afterFailure]
        split
        · exact next
        · rfl

/-- What a replay returns is the number of deliveries that it tells to be accepted. -/
theorem course_returned {n : Nat}
    (returned : (k.course e planned ps rate replies).returned = some n) :
    n = (k.course e planned ps rate replies).news.countP Happening.isAcceptance := by
  induction ps generalizing rate replies n with
  | nil =>
    cases returned
    rfl
  | cons p ps ih =>
    by_cases stale : k.Stale p
    case pos =>
      rw [course, if_pos stale] at returned ⊢
      exact ih returned
    rw [course_of_fresh stale] at returned ⊢
    cases replies with
    | nil => cases returned
    | cons reply replies =>
      have returned : (k.afterReply e planned p ps rate
        (fun rate => k.course e planned ps rate replies) (.ofReply reply)).returned = some n :=
        returned
      show n = (k.afterReply e planned p ps rate
        (fun rate => k.course e planned ps rate replies) (.ofReply reply)).news.countP _
      cases same : Ruling.ofReply reply with
      | accepted =>
        rw [same] at returned
        obtain ⟨m, later, rfl⟩ := Option.map_eq_some_iff.mp returned
        show 1 + m = (.event (.delivered e p.id) ::
          (k.course e planned ps .initial replies).news).countP Happening.isAcceptance
        rw [List.countP_cons_of_pos rfl, ← ih later, Nat.add_comm]
      | limited retryAfter =>
        rw [same] at returned
        cases returned
        rfl
      | refused reason =>
        rw [same] at returned
        exact ih returned
      | failed =>
        rw [same] at returned
        rw [afterReply, afterFailure] at returned ⊢
        split
        case isTrue most =>
          rw [if_pos most] at returned
          exact ih returned
        case isFalse few =>
          rw [if_neg few] at returned
          cases returned
          rfl

end Setting

end Outbox
