import Outbox.Proofs.Course
import Outbox.Proofs.InStep
import Outbox.Proofs.Turns

/-! # A replay keeps to its course

Each step of a task that replays an endpoint does a bit of the course of the replay and leaves the
rest of it ahead, as long as the queue is in step with its store, there is a connection and nobody
else is on the lane. The other endpoints do not notice.
-/

namespace Outbox

/-- The endpoint that it is about. Reports do not tell. -/
def Happening.endpoint? : Happening → Option Endpoint
  | event e => some e.endpoint
  | post e _ _ _ | get e _ _ => some e
  | report _ => none

/-- What an answer means for the delivery that was sent. -/
def Answer.ruling : Answer → Ruling
  | success _ _ => .accepted
  | tooManyRequests retryAfter => .limited retryAfter
  | payloadTooLarge => .refused .payloadTooLarge
  | failure status =>
    if 400 ≤ status.val ∧ status.val < 500 then .refused (.rejected status) else .failed
  | notModified | incomplete _ => .failed

theorem Answer.ruling_classify (reply : PostResult) : (classify reply).ruling = .ofReply reply := by
  cases reply with
  | error e => rfl
  | ok r =>
    simp only [classify, Ruling.ofReply]
    split
    · rfl
    · split
      case isTrue unmodified =>
        simp [ruling, unmodified]
      case isFalse =>
        split
        case isTrue large => simp [ruling, large]
        case isFalse =>
          split
          · rfl
          · simp only [ruling]
            congr 1
            exact propext ⟨fun ⟨low, high⟩ => ⟨low, by omega⟩, fun ⟨low, high⟩ => ⟨low, by omega⟩⟩

/-- A lane that a task has to itself. -/
def Permits.takenBy (j : Nat) : Permits Nat := ⟨1, [j], []⟩

/-- What a replay of an endpoint works on. -/
structure Lot where
  entries : List Pending
  rate : RateState
  planned : Option Millis
  lane : Permits Nat
  deriving Repr, DecidableEq

/-- How far a task is with one delivery. -/
def Stage.rank : Stage → Nat
  | starting _ | worked (.removed _ _ _) => 7
  | onLane _ _ => 6
  | posting _ _ => 5
  | answered _ _ _ => 4
  | working (.record _ _ _) => 3
  | worked (.recorded _ _ _) => 2
  | working (.remove _ _ _) => 1
  | _ => 0

namespace Service

variable {s t u : Service} {e f : Endpoint} {id j : Nat} {l l' : Lot} {ns ms : List Happening}
  {p : Pending} {k : Setting}

def lot (s : Service) (e : Endpoint) : Lot :=
  ⟨s.queue.pending e, s.limits.states.get e, s.replays.get e, s.lanes.get e⟩

/-- What the replays go by. -/
def setting (s : Service) : Setting where
  clock := s.clock
  maxAge := s.config.maxPendingAge
  maxRetries := s.config.maxRetryCount
  retryTime n := s.clock.shift (Millis.ofWord (s.config.retryDelay n)).val
  pause := s.limits.cooldown

/-! ## The service without its tasks -/

def bare (s : Service) : Service := { s with workers := .ofCapacity 0, tasks := [], ready := [] }

@[simp]
theorem bare_setStage (s : Service) (id : Nat) (stage : Stage) :
    (s.setStage id stage).bare = s.bare := rfl

@[simp]
theorem bare_spawnAfter (s : Service) (delay : Nat) (job : Job) :
    (s.spawnAfter delay job).bare = s.bare := by
  unfold spawnAfter
  split <;> rfl

@[simp]
theorem bare_seat (s : Service) (granted : List Nat) (self : Option Nat) :
    (s.seat granted self).bare = s.bare := by
  induction granted generalizing s with
  | nil => rfl
  | cons g gs ih =>
    rw [seat, List.foldl_cons]
    refine (ih _).trans ?_
    split
    · dsimp only
      split <;> rfl
    · rfl

@[simp]
theorem bare_notifyParent (s : Service) (parent : Nat) (result : Result) :
    (s.notifyParent parent result).bare = s.bare := by
  unfold notifyParent
  split
  · dsimp only
    split <;> rfl
  · rfl

@[simp]
theorem bare_finish (s : Service) (id : Nat) (result : Result) :
    (s.finish id result).bare = s.bare := by
  unfold finish
  split
  case h_1 => rfl
  case h_2 task found =>
    have seated : (if task.pooled = true then
          ({ s.setStage id (.finished result) with
            workers := ((s.setStage id (.finished result)).workers.leave id).1 } : Service).seat
              ((s.setStage id (.finished result)).workers.leave id).2 none
        else s.setStage id (.finished result)).bare = s.bare := by
      split
      · exact bare_seat _ _ _
      · rfl
    dsimp only
    split
    · exact (bare_notifyParent _ _ result).trans seated
    · exact seated

/-! ## What has to do with one endpoint only -/

/-- From `s` to `t` these things happened, and they have to do with the endpoint `e` only, whose lot
is `l` afterwards. -/
structure Deal (e : Endpoint) (ns : List Happening) (l : Lot) (s t : Service) : Prop where
  setting : t.setting = s.setting
  network : t.network = s.network
  inStep : s.queue.InStep → t.queue.InStep
  journal : t.journal = ns.reverse ++ s.journal
  own : ∀ h ∈ ns, ∀ f, h.endpoint? = some f → f = e
  lot : t.lot e = l
  elsewhere : ∀ f ≠ e, t.lot f = s.lot f

theorem Deal.trans (first : Deal e ns l s t) (next : Deal e ms l' t u) :
    Deal e (ns ++ ms) l' s u where
  setting := next.setting.trans first.setting
  network := next.network.trans first.network
  inStep tidy := next.inStep (first.inStep tidy)
  journal := by rw [next.journal, first.journal, List.reverse_append, List.append_assoc]
  own h member := (List.mem_append.mp member).elim (first.own h) (next.own h)
  lot := next.lot
  elsewhere f other := (next.elsewhere f other).trans (first.elsewhere f other)

/-- Only tasks have changed. -/
theorem Deal.of_bare (same : t.bare = s.bare) (e : Endpoint) : Deal e [] (s.lot e) s t where
  setting := (congrArg Service.setting same :)
  network := (congrArg Service.network same :)
  inStep tidy := by
    rw [show t.queue = s.queue from (congrArg Service.queue same :)]
    exact tidy
  journal := (congrArg Service.journal same :)
  own := by simp
  lot := (congrArg (Service.lot · e) same :)
  elsewhere f _ := (congrArg (Service.lot · f) same :)

theorem Deal.tasks (deal : Deal e ns l s t) (same : u.bare = t.bare) : Deal e ns l s u := by
  have both := deal.trans (.of_bare same e)
  rwa [List.append_nil, deal.lot] at both

theorem note_deal (s : Service) {h : Happening} (own : ∀ f, h.endpoint? = some f → f = e) :
    Deal e [h] (s.lot e) s (s.note h) :=
  ⟨rfl, rfl, id, rfl, by simpa using own, rfl, fun _ _ => rfl⟩

theorem emit_deal (s : Service) (ev : Event) :
    Deal ev.endpoint [.event ev] (s.lot ev.endpoint) s (s.emit ev) :=
  note_deal s fun _ at_ => (Option.some.inj at_).symm

theorem report_deal (s : Service) (r : Report) (e : Endpoint) :
    Deal e [.report r] (s.lot e) s (s.report [r]) :=
  ⟨rfl, rfl, id, rfl, by simp [Happening.endpoint?], rfl, fun _ _ => rfl⟩

theorem scheduleReplay_deal (s : Service) (e : Endpoint) (time : Millis) :
    Deal e [] { s.lot e with planned := sooner (s.lot e).planned time } s
      (s.scheduleReplay e time) := by
  have planned : (s.lot e).planned = s.replays.get e := rfl
  unfold scheduleReplay sooner
  rw [planned]
  dsimp only
  split
  case isTrue => exact .of_bare rfl e
  case isFalse =>
    let noted : Service := { s with replays := s.replays.set e (some time) }
    have deal : Deal e [] { s.lot e with planned := some time } s noted := by
      refine ⟨rfl, rfl, id, rfl, by simp, ?_, fun f other => ?_⟩
      · simp only [lot, noted, PerEndpoint.get_set_self]
      · simp only [lot, noted, PerEndpoint.get_set_of_ne _ _ other]
    exact deal.tasks (bare_spawnAfter noted _ _)

theorem withLimits_deal (s : Service) (e : Endpoint) (rate : RateState) :
    Deal e [] { s.lot e with rate } s
      { s with limits := { s.limits with states := s.limits.states.set e rate } } := by
  refine ⟨rfl, rfl, id, rfl, by simp, ?_, fun f other => ?_⟩
  · simp only [lot, PerEndpoint.get_set_self]
  · simp only [lot, PerEndpoint.get_set_of_ne _ _ other]

theorem withLanes_deal (s : Service) (e : Endpoint) (lane : Permits Nat) :
    Deal e [] { s.lot e with lane } s { s with lanes := s.lanes.set e lane } := by
  refine ⟨rfl, rfl, id, rfl, by simp, ?_, fun f other => ?_⟩
  · simp only [lot, PerEndpoint.get_set_self]
  · simp only [lot, PerEndpoint.get_set_of_ne _ _ other]

theorem withQueue_deal (s : Service) {queue : Queue} {ps : List Pending} (inStep : queue.InStep)
    (own : queue.pending e = ps) (others : ∀ f ≠ e, queue.pending f = s.queue.pending f) :
    Deal e [] { s.lot e with entries := ps } s { s with queue } := by
  refine ⟨rfl, rfl, fun _ => inStep, rfl, by simp, ?_, fun f other => ?_⟩
  · simp only [lot, own]
  · simp only [lot, others f other]

/-- The lane that a task gives back is free. -/
theorem leaveLane_eq (taken : s.lanes.get e = .takenBy j) :
    s.leaveLane j e = { s with lanes := s.lanes.set e (.ofCapacity 1) } := by
  have left_ : (Permits.takenBy j).leave j = (.ofCapacity 1, []) := by
    simp [Permits.takenBy, Permits.leave, Permits.grant, Permits.ofCapacity]
  rw [leaveLane, taken, left_]
  rfl

end Service

/-! ## What is ahead of a task -/

/-- The task `j` replays the endpoint `e`, whose lot is this, and these replies are still to come.
The rest of the course is ahead of it. -/
inductive Heads (k : Setting) (e : Endpoint) (j : Nat) :
    Stage → Lot → List PostResult → Course → Prop where
  | starting (ps : List Pending) (rate : RateState) (planned : Option Millis)
      (replies : List PostResult) :
      Heads k e j (.starting (.replay e)) ⟨ps, rate, planned, .ofCapacity 1⟩ replies
        (k.replay e planned ps rate replies)
  | onLane {p : Pending} {ps : List Pending} {rate : RateState} {planned : Option Millis}
      {replies : List PostResult} {n : Nat} (home : p.endpoint = e)
      (unlimited : k.limitedUntil? rate = none) :
      Heads k e j (.onLane p (.replay e ps n)) ⟨p :: ps, rate, planned, .takenBy j⟩ replies
        (((k.afterPost e planned p ps rate (k.course e planned ps) replies).tell
          [.post e p.id k.clock p.payload]).plus n)
  | posting {p : Pending} {ps : List Pending} {rate : RateState} {planned : Option Millis}
      {replies : List PostResult} {n : Nat} (home : p.endpoint = e)
      (unlimited : k.limitedUntil? rate = none) :
      Heads k e j (.posting p (.replay e ps n)) ⟨p :: ps, rate, planned, .takenBy j⟩ replies
        ((k.afterPost e planned p ps rate (k.course e planned ps) replies).plus n)
  | answered {p : Pending} {ps : List Pending} {rate : RateState} {planned : Option Millis}
      {replies : List PostResult} {n : Nat} (home : p.endpoint = e)
      (unlimited : k.limitedUntil? rate = none) (a : Answer) :
      Heads k e j (.answered p a (.replay e ps n)) ⟨p :: ps, rate, planned, .takenBy j⟩ replies
        ((k.afterReply e planned p ps rate (fun rate => k.course e planned ps rate replies)
          a.ruling).plus n)
  /-- The delivery was accepted and is to leave the queue. -/
  | accepted {p : Pending} {ps : List Pending} {planned : Option Millis} {replies : List PostResult}
      {n : Nat} (home : p.endpoint = e) :
      Heads k e j (.working (.remove p .delivered (.replay e ps n)))
        ⟨p :: ps, .initial, planned, .takenBy j⟩ replies
        ((((k.course e planned ps .initial replies).plus 1).tell
          [.event (.delivered e p.id)]).plus n)
  | delivered {p : Pending} {ps : List Pending} {planned : Option Millis}
      {replies : List PostResult} {n : Nat} (home : p.endpoint = e) :
      Heads k e j (.worked (.removed p .delivered (.replay e ps n)))
        ⟨ps, .initial, planned, .takenBy j⟩ replies
        ((((k.course e planned ps .initial replies).plus 1).tell
          [.event (.delivered e p.id)]).plus n)
  /-- The delivery is given up and is to leave the queue. -/
  | givenUp {p : Pending} {ps : List Pending} {rate : RateState} {planned : Option Millis}
      {replies : List PostResult} {n : Nat} (home : p.endpoint = e) (reason : DropReason)
      (onLane : Bool) :
      Heads k e j (.working (.remove p (.dropped reason onLane) (.replay e ps n)))
        ⟨p :: ps, rate, planned, if onLane then .takenBy j else .ofCapacity 1⟩ replies
        (((k.replay e planned ps rate replies).tell [.event (.dropped e p.id reason)]).plus n)
  | dropped {p : Pending} {ps : List Pending} {rate : RateState} {planned : Option Millis}
      {replies : List PostResult} {n : Nat} (home : p.endpoint = e) (reason : DropReason)
      (onLane : Bool) :
      Heads k e j (.worked (.removed p (.dropped reason onLane) (.replay e ps n)))
        ⟨ps, rate, planned, if onLane then .takenBy j else .ofCapacity 1⟩ replies
        (((k.replay e planned ps rate replies).tell [.event (.dropped e p.id reason)]).plus n)
  /-- The attempt failed and is to be counted. -/
  | recording {p : Pending} {ps : List Pending} {rate : RateState} {planned : Option Millis}
      {replies : List PostResult} {n : Nat} (home : p.endpoint = e)
      (unlimited : k.limitedUntil? rate = none) :
      Heads k e j (.working (.record p k.clock (.replay e ps n)))
        ⟨p :: ps, rate, planned, .takenBy j⟩ replies
        ((k.afterFailure e planned (p.failed k.clock) ps rate
          fun rate => k.course e planned ps rate replies).plus n)
  | recorded {p : Pending} {ps : List Pending} {rate : RateState} {planned : Option Millis}
      {replies : List PostResult} {n : Nat} (home : p.endpoint = e)
      (unlimited : k.limitedUntil? rate = none) :
      Heads k e j (.worked (.recorded p k.clock (.replay e ps n)))
        ⟨p :: ps, rate, planned, .takenBy j⟩ replies
        ((k.afterFailure e planned p ps rate
          fun rate => k.course e planned ps rate replies).plus n)
  | finished (ps : List Pending) (rate : RateState) (planned : Option Millis)
      (replies : List PostResult) (n : Nat) :
      Heads k e j (.finished (.count n)) ⟨ps, rate, planned, .ofCapacity 1⟩ replies
        ⟨[], ps, rate, planned, some n⟩

namespace Heads

variable {k : Setting} {e : Endpoint} {j : Nat} {stage stage' : Stage} {l : Lot}
  {replies : List PostResult} {c : Course} {p : Pending} {purpose : Purpose}

theorem home_of_posting (heads : Heads k e j (.posting p purpose) l replies c) :
    p.endpoint = e := by
  cases heads
  assumption

/-- Others do not change the stage of the task. -/
theorem near (heads : Heads k e j stage l replies c) (near : stage.Near stage') :
    stage' = stage := by
  cases heads <;> cases near <;> rfl

/-- The task has ended or waits for a reply that does not come, unless it can go on. -/
theorem rests_or_goes (heads : Heads k e j stage l replies c) :
    (c = ⟨[], l.entries, l.rate, l.planned, c.returned⟩ ∧
        ∀ n, c.returned = some n → stage = .finished (.count n)) ∨
      stage.isRunnable = true ∨ stage.isWorking = true ∨
      ∃ p purpose reply more, stage = .posting p purpose ∧ p.endpoint = e ∧
        replies = reply :: more := by
  cases heads with
  | starting | onLane | answered | delivered | dropped | recorded => exact .inr (.inl rfl)
  | accepted | givenUp | recording => exact .inr (.inr (.inl rfl))
  | posting home =>
    cases replies with
    | nil => exact .inl ⟨rfl, nofun⟩
    | cons reply more => exact .inr (.inr (.inr ⟨_, _, reply, more, rfl, home, rfl⟩))
  | finished ps rate planned _ n =>
    exact .inl ⟨rfl, fun n returned => by rw [Option.some.inj returned]⟩

end Heads

namespace Service

variable {s t u : Service} {e f : Endpoint} {id j m n : Nat} {l l' : Lot}
  {ns ms : List Happening} {p : Pending} {ps : List Pending} {rate : RateState}
  {planned : Option Millis} {k : Setting} {replies : List PostResult} {c : Course} {stage : Stage}

/-- Nothing keeps the replays from their courses. -/
structure Smooth (k : Setting) (s : Service) : Prop where
  setting : s.setting = k
  online : s.network ≠ .notReachable
  inStep : s.queue.InStep

theorem Smooth.deal (smooth : Smooth k s) (deal : Deal e ns l s t) : Smooth k t where
  setting := deal.setting.trans smooth.setting
  online := by
    rw [deal.network]
    exact smooth.online
  inStep := deal.inStep smooth.inStep

/-- From `s` to `t` the task `j` has done a bit of the course, and the rest of it is ahead of it. -/
def Proceeds (k : Setting) (e : Endpoint) (j : Nat) (replies : List PostResult) (m : Nat)
    (c : Course) (s t : Service) : Prop :=
  ∃ ns later stage l, Deal e ns l s t ∧ t.stage? j = some stage ∧
    Heads k e j stage l replies later ∧ c = later.tell ns ∧ 8 * l.entries.length + stage.rank < m

theorem Proceeds.after (first : Deal e ns l s t) (next : Proceeds k e j replies m c t u) :
    Proceeds k e j replies m (c.tell ns) s u := by
  obtain ⟨ms, later, stage, l', deal, at_, heads, rfl, less⟩ := next
  exact ⟨ns ++ ms, later, stage, l', first.trans deal, at_, heads, by simp, less⟩

/-- The task comes to another stage and does nothing else. -/
theorem setStage_proceeds (there : (s.stage? j).isSome) (lot : s.lot e = l)
    (heads : Heads k e j stage l replies c) (less : 8 * l.entries.length + stage.rank < m) :
    Proceeds k e j replies m c s (s.setStage j stage) := by
  subst lot
  exact ⟨[], c, stage, _, .of_bare (bare_setStage s j stage) e, stage?_setStage_self there stage,
    heads, rfl, less⟩

theorem finish_proceeds (there : (s.stage? j).isSome)
    (lot : s.lot e = ⟨ps, rate, planned, .ofCapacity 1⟩) (n : Nat) (less : 8 * ps.length < m) :
    Proceeds k e j replies m ⟨[], ps, rate, planned, some n⟩ s (s.finish j (.count n)) :=
  ⟨[], _, _, _, lot ▸ .of_bare (bare_finish s j (.count n)) e,
    (finish_turns there (.count n)).own, .finished ps rate planned replies n, rfl, less⟩

theorem isStale_iff (setting : s.setting = k) (p : Pending) :
    s.isStale p = true ↔ k.Stale p := by
  subst setting
  simp [isStale, Pending.isStale, Setting.Stale, Service.setting]

theorem suppression?_of_smooth (smooth : Smooth k s) (p : Pending) :
    s.suppression? p = (k.limitedUntil? (s.lot p.endpoint).rate).map fun _ => .rateLimited := by
  obtain ⟨rfl, online, -⟩ := smooth
  have connected : s.isOffline = false := by simpa [isOffline] using online
  have same : s.limits.limitedUntil? p.endpoint s.clock =
      s.setting.limitedUntil? (s.lot p.endpoint).rate := rfl
  simp only [suppression?, connected, RateLimits.isLimited, same]
  cases s.setting.limitedUntil? (s.lot p.endpoint).rate <;> rfl

/-- With the lane free an attempt gets it at once. -/
theorem attempt_proceeds (smooth : Smooth k s) (there : (s.stage? j).isSome)
    (home : p.endpoint = e) (lot : s.lot e = ⟨p :: ps, rate, planned, .ofCapacity 1⟩)
    (unlimited : k.limitedUntil? rate = none) (less : 8 * (ps.length + 1) + 6 < m) :
    Proceeds k e j replies m
      (((k.afterPost e planned p ps rate (k.course e planned ps) replies).tell
        [.post e p.id k.clock p.payload]).plus n) s (s.attempt j p (.replay e ps n)) := by
  subst home
  have free : (s.setStage j (.atLane p (.replay p.endpoint ps n))).lanes.get p.endpoint =
      .ofCapacity 1 := congrArg Lot.lane lot
  have request : (Permits.ofCapacity 1).request j = (.takenBy j, [j]) := rfl
  -- the request is granted in the same step, so the stage in between is never seen
  have tried : s.attempt j p (.replay p.endpoint ps n) =
      ({ s.setStage j (.atLane p (.replay p.endpoint ps n)) with
        lanes := s.lanes.set p.endpoint (.takenBy j) } : Service).setStage j
          (.onLane p (.replay p.endpoint ps n)) := by
    have waits : ({ s.setStage j (.atLane p (.replay p.endpoint ps n)) with
        lanes := s.lanes.set p.endpoint (.takenBy j) } : Service).stage? j =
          some (.atLane p (.replay p.endpoint ps n)) := stage?_setStage_self there _
    simp only [attempt, suppression?_of_smooth smooth, lot, unlimited, Option.map_none, free,
      request, enter, List.foldl_cons, List.foldl_nil]
    rw [show (s.setStage j (.atLane p (.replay p.endpoint ps n))).lanes = s.lanes from rfl, waits]
    simp
  rw [tried]
  have deal := (withLanes_deal s p.endpoint (.takenBy j)).tasks
    (u := ({ s.setStage j (.atLane p (.replay p.endpoint ps n)) with
      lanes := s.lanes.set p.endpoint (.takenBy j) } : Service).setStage j
        (.onLane p (.replay p.endpoint ps n))) rfl
  rw [lot] at deal
  exact ⟨_, _, _, _, deal, stage?_setStage_self (isSome_stage?.mpr (by
      simpa [setStage] using isSome_stage?.mp there)) _, .onLane rfl unlimited, rfl, less⟩

/-- A delivery is given up. -/
theorem drop_proceeds (there : (s.stage? j).isSome) (home : p.endpoint = e) (onLane : Bool)
    (lot : s.lot e = ⟨p :: ps, rate, planned, if onLane then .takenBy j else .ofCapacity 1⟩)
    (reason : DropReason) (less : 8 * (ps.length + 1) + 1 < m) :
    Proceeds k e j replies m (((k.replay e planned ps rate replies).giveUp e p reason).plus n) s
      (s.drop j p reason onLane (.replay e ps n)) :=
  .after (report_deal s (.drop p reason) e)
    (setStage_proceeds there lot (.givenUp home reason onLane) less)

/-- A delivery is left in the queue, which is told, and a replay is planned. -/
theorem leave_deal {lane : Permits Nat} (lot : s.lot e = ⟨ps, rate, planned, lane⟩) (id : String)
    (reason : QueueReason) (time : Millis) :
    Deal e [.event (.queued e id reason)] ⟨ps, rate, sooner planned time, lane⟩ s
      ((s.scheduleReplay e time).emit (.queued e id reason)) := by
  have scheduled := scheduleReplay_deal s e time
  rw [lot] at scheduled
  have told := emit_deal (s.scheduleReplay e time) (.queued e id reason)
  rw [show (s.scheduleReplay e time).lot (Event.queued e id reason).endpoint = _ from
    scheduled.lot] at told
  exact scheduled.trans told

/-- The replay goes on with these deliveries. -/
theorem replayNext_proceeds (smooth : Smooth k s) (there : (s.stage? j).isSome)
    (lot : s.lot e = ⟨ps, rate, planned, .ofCapacity 1⟩) (n : Nat)
    (less : 8 * ps.length + 6 < m) :
    Proceeds k e j replies m ((k.replay e planned ps rate replies).plus n) s
      (s.replayNext j e ps n) := by
  cases ps with
  | nil =>
    rw [Setting.replay_nil]
    exact finish_proceeds there lot n (by simp only [List.length_nil] at less ⊢; omega)
  | cons p ps =>
    rw [List.length_cons] at less
    have home : p.endpoint = e := smooth.inStep.home (congrArg Lot.entries lot)
    by_cases stale : k.Stale p
    case pos =>
      rw [replayNext, if_pos ((isStale_iff smooth.setting p).mpr stale),
        Setting.replay_of_stale stale]
      exact drop_proceeds there home false lot .stale (by omega)
    rw [replayNext, if_neg (fun gone => stale ((isStale_iff smooth.setting p).mp gone))]
    cases limited : k.limitedUntil? rate with
    | none =>
      rw [Setting.replay_of_open limited, Setting.course_of_fresh stale]
      exact attempt_proceeds smooth there home lot limited less
    | some until_ =>
      rw [Setting.replay_of_limited stale limited]
      have left_ := leave_deal lot p.id .rateLimited until_
      have bound : 8 * (p :: ps).length < m := by
        rw [List.length_cons]
        omega
      have ended : s.attempt j p (.replay e ps n) =
          ((s.scheduleReplay e until_).emit (.queued e p.id .rateLimited)).finish j
            (.count n) := by
        have same : s.limits.limitedUntil? p.endpoint s.clock = some until_ := by
          rw [home, ← limited, ← smooth.setting]
          exact congrArg (fun l => s.setting.limitedUntil? l.rate) lot
        simp only [attempt, suppression?_of_smooth smooth, home, lot, limited, Option.map_some,
          hold, concludeQueued]
        rw [home] at same
        simp only [same]
      rw [ended]
      have still : (((s.scheduleReplay e until_).emit
          (.queued e p.id .rateLimited)).stage? j).isSome :=
        (scheduleReplay_goes s e until_ there).isSome there
      exact .after left_ (finish_proceeds still left_.lot n bound)

/-- The lane is given back. -/
theorem release_deal (lot : s.lot e = ⟨ps, rate, planned, .takenBy j⟩) :
    Deal e [] ⟨ps, rate, planned, .ofCapacity 1⟩ s (s.leaveLane j e) := by
  rw [leaveLane_eq (congrArg Lot.lane lot)]
  have deal := withLanes_deal s e (.ofCapacity 1)
  rwa [lot] at deal

/-- The lane is given back, and the replay ends with what it delivered. -/
theorem yield_proceeds (there : (s.stage? j).isSome)
    (lot : s.lot e = ⟨ps, rate, planned, .takenBy j⟩) (n : Nat) (less : 8 * ps.length < m) :
    Proceeds k e j replies m ⟨[], ps, rate, planned, some n⟩ s
      ((s.leaveLane j e).finish j (.count n)) :=
  have released := release_deal lot
  .after released (finish_proceeds ((leaveLane_kept s j e).isSome there) released.lot n less)

/-- A delivery that is left in the queue ends the replay. -/
theorem leave_proceeds (there : (s.stage? j).isSome)
    (lot : s.lot e = ⟨p :: ps, rate, planned, .takenBy j⟩) (n : Nat) (reason : QueueReason)
    (time : Millis) (less : 8 * (ps.length + 1) < m) :
    Proceeds k e j replies m ((Setting.leave e planned p ps rate reason time).plus n) s
      ((((s.scheduleReplay e time).emit (.queued e p.id reason)).leaveLane j e).finish j
        (.count n)) := by
  have left_ := leave_deal lot p.id reason time
  have there : (((s.scheduleReplay e time).emit (.queued e p.id reason)).stage? j).isSome :=
    (scheduleReplay_goes s e time there).isSome there
  exact .after left_ (yield_proceeds there left_.lot n less)

/-! ## One step of the task -/

theorem send_proceeds (smooth : Smooth k s) (at_ : s.stage? j = some (.onLane p (.replay e ps n)))
    (home : p.endpoint = e) (lot : s.lot e = ⟨p :: ps, rate, planned, .takenBy j⟩)
    (unlimited : k.limitedUntil? rate = none) (less : 8 * (ps.length + 1) + 5 < m) :
    Proceeds k e j replies m
      (((k.afterPost e planned p ps rate (k.course e planned ps) replies).tell
        [.post e p.id k.clock p.payload]).plus n) s (s.send j p (.replay e ps n)) := by
  have found : s.queue.get? e p.id = some p := by
    rw [Queue.get?, show s.queue.pending e = p :: ps from congrArg Lot.entries lot]
    simp
  have sent : s.send j p (.replay e ps n) =
      (s.note (.post e p.id s.clock p.payload)).setStage j (.posting p (.replay e ps n)) := by
    simp only [send, home, found, suppression?_of_smooth smooth, lot, unlimited, Option.map_none]
  have clock : s.clock = k.clock := congrArg Setting.clock smooth.setting
  rw [sent, clock]
  have posted : Deal e [.post e p.id k.clock p.payload] (s.lot e) s
      (s.note (.post e p.id k.clock p.payload)) :=
    note_deal s fun f same => (Option.some.inj same).symm
  have there : ((s.note (.post e p.id k.clock p.payload)).stage? j).isSome :=
    Option.isSome_iff_exists.mpr ⟨_, at_⟩
  exact .after posted (setStage_proceeds there lot (.posting home unlimited) less)

theorem handle_proceeds (smooth : Smooth k s) (there : (s.stage? j).isSome) (home : p.endpoint = e)
    (lot : s.lot e = ⟨p :: ps, rate, planned, .takenBy j⟩)
    (unlimited : k.limitedUntil? rate = none) (a : Answer)
    (less : 8 * (ps.length + 1) + 3 < m) :
    Proceeds k e j replies m
      ((k.afterReply e planned p ps rate (fun rate => k.course e planned ps rate replies)
        a.ruling).plus n) s (s.handle j p a (.replay e ps n)) := by
  have refused (reason : DropReason) : Proceeds k e j replies m
      (((k.course e planned ps rate replies).giveUp e p reason).plus n) s
      (s.drop j p reason true (.replay e ps n)) := by
    rw [← Setting.replay_of_open unlimited]
    exact drop_proceeds there home true lot reason (by omega)
  have failed : Proceeds k e j replies m
      ((k.afterFailure e planned (p.failed k.clock) ps rate
        fun rate => k.course e planned ps rate replies).plus n) s
      (s.setStage j (.working (.record p s.clock (.replay e ps n)))) := by
    rw [show s.clock = k.clock from congrArg Setting.clock smooth.setting]
    exact setStage_proceeds there lot (.recording home unlimited) less
  cases a with
  | success body etag =>
    have cleared := withLimits_deal s e .initial
    rw [lot] at cleared
    have limits : s.limits.clear e =
      { s.limits with states := s.limits.states.set e .initial } := rfl
    simp only [handle, home, limits]
    exact .after cleared (setStage_proceeds there cleared.lot (.accepted home) (by
      simp only [List.length_cons, Stage.rank]
      omega))
  | tooManyRequests retryAfter =>
    -- the rate limit is noted first, so the replay ends with the new one
    let deadline := k.deadline rate retryAfter
    let limited : RateState := ⟨some deadline, Setting.rejections rate⟩
    let t : Service :=
      { s with limits := { s.limits with states := s.limits.states.set e limited } }
    have rejected : s.limits.reject e retryAfter s.clock =
        ({ s.limits with states := s.limits.states.set e limited }, deadline) := by
      obtain rfl := smooth.setting
      obtain rfl : s.limits.states.get e = rate := congrArg Lot.rate lot
      rfl
    have noted : Deal e [] ⟨p :: ps, limited, planned, .takenBy j⟩ s t := by
      have deal := withLimits_deal s e limited
      rwa [lot] at deal
    have told : Deal e [.event (.rateLimited e deadline)] (t.lot e) t
        (t.emit (.rateLimited e deadline)) := emit_deal t (.rateLimited e deadline)
    have still : ((t.emit (.rateLimited e deadline)).stage? j).isSome := there
    simp only [handle, home, rejected]
    exact .after (noted.trans told)
      (leave_proceeds still (told.lot.trans noted.lot) n .rateLimited deadline (by omega))
  | payloadTooLarge => exact refused .payloadTooLarge
  | failure status =>
    simp only [handle, Answer.ruling]
    split
    · exact refused (.rejected status)
    · exact failed
  | notModified => exact failed
  | incomplete error => exact failed

theorem delivered_proceeds (smooth : Smooth k s) (there : (s.stage? j).isSome)
    (home : p.endpoint = e) (lot : s.lot e = ⟨ps, .initial, planned, .takenBy j⟩)
    (less : 8 * ps.length + 6 < m) :
    Proceeds k e j replies m ((((k.course e planned ps .initial replies).plus 1).tell
        [.event (.delivered e p.id)]).plus n) s
      (s.resume j (.removed p .delivered (.replay e ps n))) := by
  have told : Deal e [.event (.delivered e p.id)] (s.lot e) s (s.emit (.delivered e p.id)) :=
    emit_deal s (.delivered e p.id)
  have released := told.trans (release_deal (told.lot.trans lot))
  have still : (((s.emit (.delivered e p.id)).leaveLane j e).stage? j).isSome :=
    (leaveLane_kept (s.emit (.delivered e p.id)) j e).isSome there
  have next :
      Proceeds k e j replies m ((k.replay e planned ps .initial replies).plus (n + 1)) _ _ :=
    replayNext_proceeds (smooth.deal released) still released.lot (n + 1) less
  -- an accepted delivery has lifted the rate limit
  rw [Setting.replay_of_open rfl] at next
  rw [Course.plus_tell, Course.plus_plus]
  simp only [resume, home]
  exact .after released next

theorem dropped_proceeds (smooth : Smooth k s) (there : (s.stage? j).isSome) (home : p.endpoint = e)
    {onLane : Bool}
    (lot : s.lot e = ⟨ps, rate, planned, if onLane then .takenBy j else .ofCapacity 1⟩)
    (reason : DropReason) (less : 8 * ps.length + 6 < m) :
    Proceeds k e j replies m
      (((k.replay e planned ps rate replies).tell [.event (.dropped e p.id reason)]).plus n) s
      (s.resume j (.removed p (.dropped reason onLane) (.replay e ps n))) := by
  have told : Deal e [.event (.dropped e p.id reason)] (s.lot e) s
      (s.emit (.dropped e p.id reason)) := emit_deal s (.dropped e p.id reason)
  simp only [resume, home]
  cases onLane with
  | false =>
    exact .after told (replayNext_proceeds (smooth.deal told) there (told.lot.trans lot) n less)
  | true =>
    have released := told.trans (release_deal (told.lot.trans lot))
    have still : (((s.emit (.dropped e p.id reason)).leaveLane j e).stage? j).isSome :=
      (leaveLane_kept (s.emit (.dropped e p.id reason)) j e).isSome there
    exact .after released (replayNext_proceeds (smooth.deal released) still released.lot n less)

theorem recorded_proceeds (smooth : Smooth k s) (there : (s.stage? j).isSome)
    (home : p.endpoint = e)
    (lot : s.lot e = ⟨p :: ps, rate, planned, .takenBy j⟩)
    (unlimited : k.limitedUntil? rate = none) (less : 8 * (ps.length + 1) + 1 < m) :
    Proceeds k e j replies m
      ((k.afterFailure e planned p ps rate
        fun rate => k.course e planned ps rate replies).plus n) s
      (s.resume j (.recorded p k.clock (.replay e ps n))) := by
  obtain rfl := smooth.setting
  by_cases most : s.setting.maxRetries.val ≤ p.retries.val
  case pos =>
    have given : s.config.maxRetryCount.val ≤ p.retries.val := most
    rw [Setting.afterFailure, if_pos most, ← Setting.replay_of_open unlimited, resume, if_pos given]
    exact drop_proceeds there home true lot .stale less
  case neg =>
    have kept : ¬s.config.maxRetryCount.val ≤ p.retries.val := most
    rw [Setting.afterFailure, if_neg most, resume, if_neg kept, home]
    exact leave_proceeds there lot n .retryScheduled _ (by omega)

/-- The delivery leaves the queue and the disk. -/
theorem remove_deal (smooth : Smooth k s) {lane : Permits Nat}
    (lot : s.lot e = ⟨p :: ps, rate, planned, lane⟩) (ending : Ending) (purpose : Purpose) :
    Deal e [] ⟨ps, rate, planned, lane⟩ s (s.perform (.remove p ending purpose)).1 := by
  obtain ⟨silent, inStep, own, others⟩ := smooth.inStep.remove (congrArg Lot.entries lot)
  have removed := withQueue_deal s inStep own others
  rw [lot] at removed
  simp only [perform, silent]
  exact removed

/-- The failed attempt is counted in the queue and on disk. -/
theorem record_deal (smooth : Smooth k s) {lane : Permits Nat}
    (lot : s.lot e = ⟨p :: ps, rate, planned, lane⟩) (time : Millis) (purpose : Purpose) :
    Deal e [] ⟨p.failed time :: ps, rate, planned, lane⟩ s
        (s.perform (.record p time purpose)).1 ∧
      (s.perform (.record p time purpose)).2 = .recorded (p.failed time) time purpose := by
  obtain ⟨silent, inStep, own, others⟩ :=
    smooth.inStep.recordFailure (congrArg Lot.entries lot) time
  have recorded := withQueue_deal s inStep own others
  rw [lot] at recorded
  simp only [perform, silent, and_true]
  exact recorded

/-- A step of the task does a bit of the course. -/
theorem advance_proceeds (smooth : Smooth k s) (at_ : s.stage? j = some stage)
    (heads : Heads k e j stage (s.lot e) replies c) (runnable : stage.isRunnable = true) :
    Proceeds k e j replies (8 * (s.lot e).entries.length + stage.rank) c s (s.advance j) := by
  have there : (s.stage? j).isSome := Option.isSome_iff_exists.mpr ⟨stage, at_⟩
  generalize lot : s.lot e = l at heads
  cases heads with
  | starting ps rate planned =>
    have entries : s.queue.pending e = ps := congrArg Lot.entries lot
    simp only [advance, at_, begin, entries]
    rw [← Course.plus_zero (k.replay e planned ps rate replies)]
    exact replayNext_proceeds smooth there lot 0 (Nat.lt_succ_self _)
  | onLane home unlimited =>
    simp only [advance, at_]
    exact send_proceeds smooth at_ home lot unlimited (Nat.lt_succ_self _)
  | answered home unlimited a =>
    simp only [advance, at_]
    exact handle_proceeds smooth there home lot unlimited a (Nat.lt_succ_self _)
  | delivered home =>
    simp only [advance, at_]
    exact delivered_proceeds smooth there home lot (Nat.lt_succ_self _)
  | dropped home reason onLane =>
    simp only [advance, at_]
    exact dropped_proceeds smooth there home lot reason (Nat.lt_succ_self _)
  | recorded home unlimited =>
    simp only [advance, at_]
    exact recorded_proceeds smooth there home lot unlimited (Nat.lt_succ_self _)
  | posting | accepted | givenUp | recording | finished => cases runnable

/-- Dealing with files does a bit of the course. -/
theorem work_proceeds (smooth : Smooth k s) (at_ : s.stage? j = some stage)
    (heads : Heads k e j stage (s.lot e) replies c) (working : stage.isWorking = true) :
    Proceeds k e j replies (8 * (s.lot e).entries.length + stage.rank) c s (s.work j) := by
  have there (w : Work) : ((s.perform w).1.stage? j).isSome := by
    rw [(perform_aside s w).stage?, at_]
    rfl
  generalize lot : s.lot e = l at heads
  cases heads with
  | @accepted p ps planned _ n home =>
    have removed := remove_deal smooth lot .delivered (.replay e ps n)
    simp only [work, at_]
    exact .after removed (setStage_proceeds (there _) removed.lot (.delivered home) (by
      simp only [Stage.rank, List.length_cons]
      omega))
  | @givenUp p ps rate planned _ n home reason onLane =>
    have removed := remove_deal smooth lot (.dropped reason onLane) (.replay e ps n)
    simp only [work, at_]
    exact .after removed (setStage_proceeds (there _) removed.lot (.dropped home reason onLane) (by
      simp only [Stage.rank, List.length_cons]
      omega))
  | @recording p ps rate planned _ n home unlimited =>
    obtain ⟨recorded, done⟩ := record_deal smooth lot k.clock (.replay e ps n)
    simp only [work, at_, done]
    exact .after recorded (setStage_proceeds (there _) recorded.lot (.recorded home unlimited)
      (Nat.lt_succ_self _))
  | starting | onLane | posting | answered | delivered | dropped | recorded | finished =>
    cases working

/-- The next reply is taken. -/
theorem answer_proceeds {reply : PostResult} {purpose : Purpose}
    (at_ : s.stage? j = some (.posting p purpose))
    (heads : Heads k e j (.posting p purpose) (s.lot e) (reply :: replies) c) :
    Proceeds k e j replies (8 * (s.lot e).entries.length + Stage.rank (.posting p purpose)) c s
      (s.answer j (.classify reply)) := by
  have there : (s.stage? j).isSome := Option.isSome_iff_exists.mpr ⟨_, at_⟩
  generalize lot : s.lot e = l at heads
  cases heads with
  | posting home unlimited =>
    simp only [answer, at_, Setting.afterPost, ← Answer.ruling_classify]
    exact setStage_proceeds there lot (.answered home unlimited _) (Nat.lt_succ_self _)

end Service

end Outbox
