import Outbox.Proofs.Stages

/-! # From one stage to the next

What one step of a task makes of its stage, and which deliveries it leaves in the queue, whatever
stage it is at. All other moves make little of the stages.
-/

namespace Outbox

/-- The answer of a task whose attempt left its delivery in the queue. -/
def Purpose.queuedResult (reason : QueueReason) : Purpose → Result
  | .send => .sent (.queued reason)
  | .final _ _ => .handled (some (.queued reason))
  | .replay _ _ delivered => .count delivered

/-- How an attempt begins: the delivery is left in the queue at once, or the task asks for the
lane. -/
inductive Tries (p : Pending) (purpose : Purpose) :
    List (Pending × QueueReason) → Stage → Prop where
  | held (reason : QueueReason) :
      Tries p purpose [(p, reason)] (.finished (purpose.queuedResult reason))
  | waits : Tries p purpose [] (.atLane p purpose)
  | enters : Tries p purpose [] (.onLane p purpose)

/-- How a replay goes on with these deliveries. -/
inductive Replays (e : Endpoint) (delivered : Nat) :
    List Pending → List (Pending × QueueReason) → Stage → Prop where
  | done : Replays e delivered [] [] (.finished (.count delivered))
  | givesUp (p : Pending) (rest : List Pending) :
      Replays e delivered (p :: rest) []
        (.working (.remove p (.dropped .stale false) (.replay e rest delivered)))
  | tries {p : Pending} {rest : List Pending} {held : List (Pending × QueueReason)} {stage : Stage}
      (tries : Tries p (.replay e rest delivered) held stage) :
      Replays e delivered (p :: rest) held stage

/-- How a task goes on after an attempt with this outcome. -/
inductive Concludes : SendOutcome → Purpose → List (Pending × QueueReason) → Stage → Prop where
  | queued (reason : QueueReason) (purpose : Purpose) :
      Concludes (.queued reason) purpose [] (.finished (purpose.queuedResult reason))
  | sent {outcome : SendOutcome} (other : ∀ reason, outcome ≠ .queued reason) :
      Concludes outcome .send [] (.finished (.sent outcome))
  | discards {outcome : SendOutcome} (terminal : outcome.isTerminal = true) (e : Envelope) :
      Concludes outcome (.final e false) [] (.working (.discard e outcome))
  | handled {outcome : SendOutcome} (other : ∀ reason, outcome ≠ .queued reason) (e : Envelope)
      (durable : Bool) :
      Concludes outcome (.final e durable) [] (.finished (.handled (some outcome)))
  | replays {outcome : SendOutcome} (other : ∀ reason, outcome ≠ .queued reason) {e : Endpoint}
      {rest : List Pending} {n n' : Nat} {held : List (Pending × QueueReason)} {stage : Stage}
      (replays : Replays e n' rest held stage) : Concludes outcome (.replay e rest n) held stage

/-- What came of an attempt that ended so. -/
def Ending.outcome : Ending → SendOutcome
  | delivered => .delivered
  | dropped reason _ => .dropped reason

/-- From one stage to the next: what one step of a task makes of its stage, and which deliveries it
leaves in the queue. -/
inductive Leads (s : Service) : Stage → List (Pending × QueueReason) → Stage → Prop where
  | stays (stage : Stage) : Leads s stage [] stage
  | asks (job : Job) : Leads s (.spawned job) [] (.atWorkers job)
  | sits (job : Job) : Leads s (.spawned job) [] (.starting job)
  | rejects (e : Endpoint) (payload : Bytes) :
      Leads s (.starting (.send e payload)) [] (.finished (.sent (.dropped .unsupportedEndpoint)))
  | enqueues (e : Endpoint) (payload : Bytes) :
      Leads s (.starting (.send e payload)) [] (.working (.enqueue e payload))
  | persists (e : Envelope) (type : SnapshotType) (terminal : type.isTerminal = true) :
      Leads s (.starting (.deliver e type)) [] (.working (.persist e))
  | caches (e : Envelope) (type : SnapshotType) (checkpoint : type.isTerminal = false)
      (running : s.isFinalized e.id = false) :
      Leads s (.starting (.deliver e type)) [] (.working (.cache e))
  | ignores (e : Envelope) (type : SnapshotType) (checkpoint : type.isTerminal = false) :
      Leads s (.starting (.deliver e type)) [] (.finished (.handled none))
  | triesFinal {e : Envelope} {p : Pending} {durable : Bool} {held : List (Pending × QueueReason)}
      {stage : Stage} (tries : Tries p (.final e durable) held stage) :
      Leads s (.starting (.sendFinal e p durable)) held stage
  | flushes (left delivered : Nat) : Leads s (.starting .flush) [] (.joining left delivered)
  | flushesNone : Leads s (.starting .flush) [] (.finished (.count 0))
  | replays {e : Endpoint} {job : Job} (due : job = .replay e ∨ ∃ time, job = .replayAt e time)
      {held : List (Pending × QueueReason)} {stage : Stage}
      (replays : Replays e 0 (s.queue.pending e) held stage) : Leads s (.starting job) held stage
  | fetches (e : Endpoint) (etag : Option String) :
      Leads s (.starting (.fetch e etag)) [] (.asking e)
  | fetchesNone (e : Endpoint) (etag : Option String) (outcome : FetchOutcome) :
      Leads s (.starting (.fetch e etag)) [] (.finished (.fetched outcome))
  | resurrects : Leads s (.starting .resurrect) [] (.working .resurrect)
  | triesEnqueued {p : Pending} {held : List (Pending × QueueReason)} {stage : Stage}
      (tries : Tries p .send held stage) : Leads s (.worked (.enqueued p)) held stage
  | triesPersisted {e : Envelope} {p : Pending} {durable : Bool}
      {held : List (Pending × QueueReason)} {stage : Stage}
      (tries : Tries p (.final e durable) held stage) :
      Leads s (.worked (.persisted e p durable)) held stage
  | cached : Leads s (.worked .cached) [] (.finished (.handled none))
  | discarded (outcome : SendOutcome) :
      Leads s (.worked (.discarded outcome)) [] (.finished (.handled (some outcome)))
  | resurrected (n : Nat) : Leads s (.worked (.resurrected n)) [] (.finished (.count n))
  | ends {p : Pending} {ending : Ending} {purpose : Purpose} {held : List (Pending × QueueReason)}
      {stage : Stage} (concludes : Concludes ending.outcome purpose held stage) :
      Leads s (.worked (.removed p ending purpose)) held stage
  | ceiling (p : Pending) (time : Millis) (purpose : Purpose) :
      Leads s (.worked (.recorded p time purpose)) []
        (.working (.remove p (.dropped .stale true) purpose))
  | retries {p : Pending} {time : Millis} {purpose : Purpose} {stage : Stage}
      (concludes : Concludes (.queued .retryScheduled) purpose [] stage) :
      Leads s (.worked (.recorded p time purpose)) [(p, .retryScheduled)] stage
  | skips {p : Pending} {purpose : Purpose} (missing : s.queue.get? p.endpoint p.id = none)
      {held : List (Pending × QueueReason)} {stage : Stage}
      (concludes : Concludes .skipped purpose held stage) : Leads s (.onLane p purpose) held stage
  | holds {p current : Pending} {purpose : Purpose}
      (found : s.queue.get? p.endpoint p.id = some current) {reason : QueueReason} {stage : Stage}
      (concludes : Concludes (.queued reason) purpose [] stage) :
      Leads s (.onLane p purpose) [(current, reason)] stage
  | posts {p current : Pending} {purpose : Purpose}
      (found : s.queue.get? p.endpoint p.id = some current) :
      Leads s (.onLane p purpose) [] (.posting current purpose)
  | accepts (p : Pending) (a : Answer) (purpose : Purpose) :
      Leads s (.answered p a purpose) [] (.working (.remove p .delivered purpose))
  | limited {p : Pending} {a : Answer} {purpose : Purpose} {stage : Stage}
      (concludes : Concludes (.queued .rateLimited) purpose [] stage) :
      Leads s (.answered p a purpose) [(p, .rateLimited)] stage
  | refuses (p : Pending) (a : Answer) (purpose : Purpose) (reason : DropReason) :
      Leads s (.answered p a purpose) [] (.working (.remove p (.dropped reason true) purpose))
  | counts (p : Pending) (a : Answer) (purpose : Purpose) (time : Millis) :
      Leads s (.answered p a purpose) [] (.working (.record p time purpose))
  | learns (e : Endpoint) (a : Answer) (outcome : FetchOutcome) :
      Leads s (.told e a) [] (.finished (.fetched outcome))
  | joined (delivered : Nat) : Leads s (.joining 0 delivered) [] (.finished (.count delivered))

namespace Service

variable {s t u : Service} {id : Nat} {p : Pending} {purpose : Purpose}

theorem concludeQueued_turns (there : (s.stage? id).isSome) (reason : QueueReason)
    (purpose : Purpose) :
    Turns id [] (.finished (purpose.queuedResult reason)) s
      (s.concludeQueued id reason purpose) := by
  cases purpose <;> exact finish_turns there _

theorem attempt_turns (there : (s.stage? id).isSome) (p : Pending) (purpose : Purpose) :
    ∃ held stage, Tries p purpose held stage ∧ Turns id held stage s (s.attempt id p purpose) := by
  unfold attempt
  split
  case h_1 reason suppressed =>
    have held := hold_goes s suppressed there
    have ended := concludeQueued_turns (held.isSome there) reason purpose
    exact ⟨_, _, .held reason, Turns.after held ended⟩
  case h_2 =>
    have placed := setStage_turns there (.atLane p purpose)
    let lane := (s.lanes.get p.endpoint).request id
    have entered := (withLanes_kept (s.setStage id (.atLane p purpose))
      (s.lanes.set p.endpoint lane.1)).trans (enter_kept _ lane.2 (some id))
    obtain ⟨stage, at_, moved⟩ := entered.near id _ placed.own
    have goes := placed.toGoes.trans (entered.goes id)
    cases moved with
    | refl => exact ⟨_, _, .waits, goes, at_⟩
    | entered => exact ⟨_, _, .enters, goes, at_⟩

theorem drop_turns (there : (s.stage? id).isSome) (p : Pending) (reason : DropReason)
    (onLane : Bool) (purpose : Purpose) :
    Turns id [] (.working (.remove p (.dropped reason onLane) purpose)) s
      (s.drop id p reason onLane purpose) :=
  have reported := report_kept s [.drop p reason]
  reported.turn (setStage_turns (reported.isSome there) _)

theorem replayNext_turns (there : (s.stage? id).isSome) (e : Endpoint) (ps : List Pending)
    (delivered : Nat) :
    ∃ held stage, Replays e delivered ps held stage ∧
      Turns id held stage s (s.replayNext id e ps delivered) := by
  unfold replayNext
  split
  case h_1 => exact ⟨_, _, .done, finish_turns there _⟩
  case h_2 p rest =>
    dsimp only
    split
    · exact ⟨_, _, .givesUp p rest, drop_turns there p .stale false _⟩
    · obtain ⟨held, stage, tries, turns⟩ := attempt_turns there p (.replay e rest delivered)
      exact ⟨held, stage, .tries tries, turns⟩

theorem conclude_turns (there : (s.stage? id).isSome) (outcome : SendOutcome)
    (purpose : Purpose) :
    ∃ held stage, Concludes outcome purpose held stage ∧
      Turns id held stage s (s.conclude id outcome purpose) := by
  by_cases queued : ∃ reason, outcome = .queued reason
  · obtain ⟨reason, rfl⟩ := queued
    exact ⟨_, _, .queued reason purpose, concludeQueued_turns there reason purpose⟩
  have other (reason : QueueReason) : outcome ≠ .queued reason := fun same => queued ⟨reason, same⟩
  cases purpose with
  | send =>
    have ended := finish_turns there (.sent outcome)
    cases outcome with
    | queued reason => exact absurd rfl (other reason)
    | _ => exact ⟨_, _, .sent other, ended⟩
  | final e durable =>
    have ends : ∃ held stage, Concludes outcome (.final e durable) held stage ∧
        Turns id held stage s (if (!durable && outcome.isTerminal) = true then
            s.setStage id (.working (.discard e outcome))
          else s.finish id (.handled (some outcome))) := by
      split
      case isTrue terminal =>
        cases durable with
        | true => cases terminal
        | false => exact ⟨_, _, .discards terminal e, setStage_turns there _⟩
      case isFalse => exact ⟨_, _, .handled other e durable, finish_turns there _⟩
    cases outcome with
    | queued reason => exact absurd rfl (other reason)
    | _ => exact ends
  | replay e rest n =>
    have onward (n' : Nat) : ∃ held stage, Concludes outcome (.replay e rest n) held stage ∧
        Turns id held stage s (s.replayNext id e rest n') := by
      obtain ⟨held, stage, replays, turns⟩ := replayNext_turns there e rest n'
      exact ⟨held, stage, .replays other replays, turns⟩
    cases outcome with
    | queued reason => exact absurd rfl (other reason)
    | delivered => exact onward (n + 1)
    | _ => exact onward n

theorem emit_kept (s : Service) {e : Event} (other : (Happening.event e).isQueued = false) :
    Kept s (s.emit e) := note_kept s other

/-- A step that leads to the stage `new`, with some deliveries left in the queue. -/
def Advances (id : Nat) (old : Stage) (s t : Service) : Prop :=
  ∃ held new, Leads s old held new ∧ Turns id held new s t

variable {held : List (Pending × QueueReason)} {old : Stage}

/-- After a delivery was left in the queue the lane is given back, and the task goes on. -/
theorem Goes.release (goes : Goes id held s t) (there : (s.stage? id).isSome) (e : Endpoint)
    (reason : QueueReason) (purpose : Purpose) :
    Turns id held (.finished (purpose.queuedResult reason)) s
      ((t.leaveLane id e).conclude id (.queued reason) purpose) := by
  have left := leaveLane_kept t id e
  have ended : Turns id [] (.finished (purpose.queuedResult reason)) (t.leaveLane id e)
      ((t.leaveLane id e).conclude id (.queued reason) purpose) :=
    concludeQueued_turns (left.isSome (goes.isSome there)) reason purpose
  exact Turns.after goes (left.turn ended)

theorem send_advances (at_ : s.stage? id = some (.onLane p purpose)) :
    Advances id (.onLane p purpose) s (s.send id p purpose) := by
  have there : (s.stage? id).isSome := by simp [at_]
  unfold send
  split
  case h_1 missing =>
    have left := leaveLane_kept s id p.endpoint
    obtain ⟨held, stage, concludes, turns⟩ :=
      conclude_turns (left.isSome there) .skipped purpose
    exact ⟨held, stage, .skips missing concludes, left.turn turns⟩
  case h_2 current found =>
    split
    case h_1 reason suppressed =>
      have kept := hold_goes s suppressed there
      exact ⟨_, _, .holds found (.queued reason purpose),
        kept.release there p.endpoint reason purpose⟩
    case h_2 =>
      have noted := note_kept s (h := .post p.endpoint current.id s.clock current.payload) rfl
      exact ⟨_, _, .posts found, noted.turn (setStage_turns (noted.isSome there) _)⟩

theorem handle_advances {a : Answer} (at_ : s.stage? id = some (.answered p a purpose)) :
    Advances id (.answered p a purpose) s (s.handle id p a purpose) := by
  have there : (s.stage? id).isSome := by simp [at_]
  cases a with
  | success body etag =>
    have cleared := withLimits_kept s (s.limits.clear p.endpoint)
    exact ⟨_, _, .accepts p _ purpose, cleared.turn (setStage_turns (cleared.isSome there) _)⟩
  | tooManyRequests retryAfter =>
    let rejected := s.limits.reject p.endpoint retryAfter s.clock
    have limited := (withLimits_kept s rejected.1).trans
      (emit_kept _ (e := .rateLimited p.endpoint rejected.2) rfl)
    have kept := (limited.goes id).trans (scheduleReplay_held _ p rejected.2
      .rateLimited nofun (limited.isSome there))
    exact ⟨_, _, .limited (.queued .rateLimited purpose),
      kept.release there p.endpoint .rateLimited purpose⟩
  | payloadTooLarge =>
    exact ⟨_, _, .refuses p _ purpose .payloadTooLarge, drop_turns there p _ true purpose⟩
  | failure status =>
    unfold handle
    dsimp only
    split
    · exact ⟨_, _, .refuses p _ purpose (.rejected status), drop_turns there p _ true purpose⟩
    · exact ⟨_, _, .counts p _ purpose s.clock, setStage_turns there _⟩
  | notModified | incomplete e =>
    exact ⟨_, _, .counts p _ purpose s.clock, setStage_turns there _⟩

theorem resume_advances {done : Done} (at_ : s.stage? id = some (.worked done)) :
    Advances id (.worked done) s (s.resume id done) := by
  have there : (s.stage? id).isSome := by simp [at_]
  cases done with
  | enqueued p =>
    obtain ⟨held, stage, tries, turns⟩ := attempt_turns there p .send
    exact ⟨held, stage, .triesEnqueued tries, turns⟩
  | persisted e p durable =>
    obtain ⟨held, stage, tries, turns⟩ := attempt_turns there p (.final e durable)
    exact ⟨held, stage, .triesPersisted tries, turns⟩
  | cached => exact ⟨_, _, .cached, finish_turns there _⟩
  | discarded outcome => exact ⟨_, _, .discarded outcome, finish_turns there _⟩
  | resurrected n => exact ⟨_, _, .resurrected n, finish_turns there _⟩
  | removed p ending purpose =>
    have onward {t : Service} (kept : Kept s t) :
        Advances id (.worked (.removed p ending purpose)) s
          (t.conclude id ending.outcome purpose) := by
      obtain ⟨held, stage, concludes, turns⟩ :=
        conclude_turns (kept.isSome there) ending.outcome purpose
      exact ⟨held, stage, .ends concludes, kept.turn turns⟩
    cases ending with
    | delivered =>
      exact onward ((emit_kept s (e := .delivered p.endpoint p.id) rfl).trans
        (leaveLane_kept _ id p.endpoint))
    | dropped reason onLane =>
      have told := emit_kept s (e := .dropped p.endpoint p.id reason) rfl
      cases onLane with
      | true => exact onward (told.trans (leaveLane_kept _ id p.endpoint))
      | false => exact onward told
  | recorded p time purpose =>
    unfold resume
    dsimp only
    split
    · exact ⟨_, _, .ceiling p time purpose, drop_turns there p .stale true purpose⟩
    · have kept := scheduleReplay_held s p (s.retryTime p time) .retryScheduled nofun there
      exact ⟨_, _, .retries (.queued .retryScheduled purpose),
        kept.release there p.endpoint .retryScheduled purpose⟩

/-! ## Beginning -/

theorem replayNext_advances (there : (s.stage? id).isSome) {job : Job} {e : Endpoint}
    (due : job = .replay e ∨ ∃ time, job = .replayAt e time) :
    Advances id (.starting job) s (s.replayNext id e (s.queue.pending e) 0) := by
  obtain ⟨held, stage, replays, turns⟩ := replayNext_turns there e (s.queue.pending e) 0
  exact ⟨held, stage, .replays due replays, turns⟩

/-- Starts a replay of each of these endpoints, for the task `id`. -/
def replayAll (s : Service) (id : Nat) (es : List Endpoint) : Service :=
  es.foldl (fun s e => (s.wake s.tasks.length).addTask ⟨false, some id, .starting (.replay e)⟩) s

theorem replayAll_kept (s : Service) (id : Nat) (es : List Endpoint) :
    Kept s (s.replayAll id es) := by
  induction es generalizing s with
  | nil => exact .refl s
  | cons e es ih =>
    exact ((wake_kept s _).trans (addTask_kept _ (.starting e))).trans (ih _)

theorem replayAll_starts {es : List Endpoint} {e : Endpoint} (member : e ∈ es) (s : Service)
    (id : Nat) : ∃ j ≥ s.tasks.length,
      (s.replayAll id es).stage? j = some (.starting (.replay e)) := by
  induction es generalizing s with
  | nil => cases member
  | cons f es ih =>
    let first : Task := ⟨false, some id, .starting (.replay f)⟩
    let begun := (s.wake s.tasks.length).addTask first
    have size : begun.tasks.length = s.tasks.length + 1 := by simp [begun, addTask, wake]
    rcases List.mem_cons.mp member with rfl | later
    · have at_ : begun.stage? s.tasks.length = some (.starting (.replay e)) := by
        rw [stage?_addTask]
        exact if_pos rfl
      obtain ⟨stage, at_', moved⟩ := (replayAll_kept begun id es).near _ _ at_
      cases moved
      exact ⟨s.tasks.length, Nat.le_refl _, at_'⟩
    · obtain ⟨j, beyond, at_⟩ := ih later begun
      exact ⟨j, by omega, at_⟩

/-- A flush replays every endpoint that has deliveries, unless there is no connection. -/
theorem flush_starts (there : (s.stage? id).isSome) (online : s.network ≠ .notReachable)
    {e : Endpoint} (some_ : s.queue.pending e ≠ []) :
    ∃ j ≠ id, (s.flush id).stage? j = some (.starting (.replay e)) := by
  have member : e ∈ s.queue.endpoints := by
    refine List.mem_filter.mpr ⟨by cases e <;> decide, ?_⟩
    simpa using some_
  have connected : s.isOffline = false := by simpa [isOffline] using online
  obtain ⟨j, beyond, at_⟩ := replayAll_starts member
    (s.setStage id (.joining s.queue.endpoints.length 0)) id
  have inside := isSome_stage?.mp there
  rw [show (s.setStage id (.joining s.queue.endpoints.length 0)).tasks.length = s.tasks.length from
    List.length_modify ..] at beyond
  refine ⟨j, by omega, ?_⟩
  have many : s.queue.endpoints.isEmpty = false := by
    rw [List.isEmpty_eq_false_iff]
    exact List.ne_nil_of_mem member
  simpa [flush, connected, many, replayAll] using at_

theorem flush_advances (there : (s.stage? id).isSome) :
    Advances id (.starting .flush) s (s.flush id) := by
  unfold flush
  generalize (if s.isOffline then [] else s.queue.endpoints) = endpoints
  dsimp only
  split
  · exact ⟨_, _, .flushesNone, finish_turns there _⟩
  · have placed := setStage_turns there (.joining endpoints.length 0)
    have kept := replayAll_kept (s.setStage id (.joining endpoints.length 0)) id endpoints
    obtain ⟨stage, at_, moved⟩ := kept.near id _ placed.own
    have goes := placed.toGoes.trans (kept.goes id)
    cases moved with
    | refl => exact ⟨_, _, .flushes _ _, goes, at_⟩
    | counted => exact ⟨_, _, .flushes _ _, goes, at_⟩

theorem fetch_advances (there : (s.stage? id).isSome) (e : Endpoint) (etag : Option String) :
    Advances id (.starting (.fetch e etag)) s (s.fetch id e etag) := by
  unfold fetch
  split
  · exact ⟨_, _, .fetchesNone e etag _, finish_turns there _⟩
  · split
    · exact ⟨_, _, .fetchesNone e etag _, finish_turns there _⟩
    · have noted := note_kept s (h := .get e s.clock etag) rfl
      exact ⟨_, _, .fetches e etag, noted.turn (setStage_turns (noted.isSome there) _)⟩

theorem learn_advances {e : Endpoint} {a : Answer} (at_ : s.stage? id = some (.told e a)) :
    Advances id (.told e a) s (s.learn id e a) := by
  have there : (s.stage? id).isSome := by simp [at_]
  have ended {t : Service} (kept : Kept s t) (outcome : FetchOutcome) :
      Advances id (.told e a) s (t.finish id (.fetched outcome)) :=
    ⟨_, _, .learns e a outcome, kept.turn (finish_turns (kept.isSome there) _)⟩
  cases a with
  | success body etag => exact ended (withLimits_kept s _) _
  | notModified => exact ended (withLimits_kept s _) _
  | tooManyRequests retryAfter =>
    exact ended ((withLimits_kept s (s.limits.reject e retryAfter s.clock).1).trans
      (emit_kept _ (e := .rateLimited e (s.limits.reject e retryAfter s.clock).2) rfl)) _
  | payloadTooLarge => exact ended (.refl s) _
  | failure status => exact ended (.refl s) _
  | incomplete error => exact ended (.refl s) _

/-- A planned replay that begins is no longer planned. -/
def unplan (s : Service) : Stage → Service
  | .starting (.replayAt e time) =>
    if s.replays.get e = some time then { s with replays := s.replays.set e none } else s
  | _ => s

theorem unplan_same (s : Service) (stage : Stage) :
    (s.unplan stage).network = s.network ∧ (s.unplan stage).queue = s.queue ∧
      (s.unplan stage).tasks = s.tasks ∧ (s.unplan stage).journal = s.journal := by
  unfold unplan
  split
  · split <;> exact ⟨rfl, rfl, rfl, rfl⟩
  · exact ⟨rfl, rfl, rfl, rfl⟩

theorem begin_advances {job : Job} (at_ : s.stage? id = some (.starting job)) :
    Advances id (.starting job) (s.unplan (.starting job)) (s.begin id job) := by
  have there : (s.stage? id).isSome := by simp [at_]
  cases job with
  | send e payload =>
    unfold begin
    dsimp only
    split
    · have reported := report_kept s
        [⟨.deliveryDataLoss, e.name ++ " does not accept payloads", none⟩]
      exact ⟨_, _, .rejects e payload, reported.turn (finish_turns (reported.isSome there) _)⟩
    · exact ⟨_, _, .enqueues e payload, setStage_turns there _⟩
  | deliver e type =>
    unfold begin
    dsimp only
    split
    case isTrue terminal =>
      have marked : Kept s (s.markFinalized e) := .same rfl rfl rfl rfl rfl ⟨[], rfl, rfl⟩
      have turned := marked.turn (setStage_turns (marked.isSome there) (.working (.persist e)))
      exact ⟨_, _, .persists e type terminal, turned⟩
    case isFalse terminal =>
      have checkpoint := Bool.eq_false_iff.mpr terminal
      split
      · exact ⟨_, _, .ignores e type checkpoint, finish_turns there _⟩
      case isFalse running =>
        exact ⟨_, _, .caches e type checkpoint (Bool.eq_false_iff.mpr running),
          setStage_turns there _⟩
  | sendFinal e p durable =>
    obtain ⟨held, stage, tries, turns⟩ := attempt_turns there p (.final e durable)
    exact ⟨held, stage, .triesFinal tries, turns⟩
  | flush => exact flush_advances there
  | replay e => exact replayNext_advances there (.inl rfl)
  | replayAt e time =>
    have same := s.unplan_same (.starting (.replayAt e time))
    have there' : ((s.unplan (.starting (.replayAt e time))).stage? id).isSome := by
      rw [stage?, same.2.2.1]
      exact there
    exact replayNext_advances there' (.inr ⟨time, rfl⟩)
  | fetch e etag => exact fetch_advances there e etag
  | resurrect => exact ⟨_, _, .resurrects, setStage_turns there _⟩

theorem askWorker_advances {job : Job} (at_ : s.stage? id = some (.spawned job)) :
    Advances id (.spawned job) s (s.askWorker id job) := by
  have there : (s.stage? id).isSome := by simp [at_]
  have placed := setStage_turns there (.atWorkers job)
  let asked := s.workers.request id
  have seated := (withWorkers_kept (s.setStage id (.atWorkers job)) asked.1).trans
    (seat_kept _ asked.2 (some id))
  obtain ⟨stage, at_', moved⟩ := seated.near id _ placed.own
  have goes := placed.toGoes.trans (seated.goes id)
  cases moved with
  | refl => exact ⟨_, _, .asks job, goes, at_'⟩
  | seated => exact ⟨_, _, .sits job, goes, at_'⟩

/-- What one step of a task makes of its stage. -/
theorem advance_advances (at_ : s.stage? id = some old) :
    Advances id old (s.unplan old) (s.advance id) := by
  have there : (s.stage? id).isSome := by simp [at_]
  have stays : Advances id old s s := ⟨[], old, .stays old, (Kept.refl s).goes id, at_⟩
  unfold advance
  simp only [at_]
  cases old with
  | spawned job => exact askWorker_advances at_
  | starting job => exact begin_advances at_
  | worked done => exact resume_advances at_
  | onLane p purpose => exact send_advances at_
  | answered p a purpose => exact handle_advances at_
  | told e a => exact learn_advances at_
  | joining left delivered =>
    cases left with
    | zero => exact ⟨_, _, .joined delivered, finish_turns there _⟩
    | succ left => exact stays
  | _ => exact stays

end Service

/-! ## The other moves -/

/-- What a move that is no step of a task makes of the stage of the task `j`. -/
inductive Stage.Gets (s : Service) (j : Nat) : Move → Stage → Stage → Prop where
  | same (m : Move) (stage : Stage) : Gets s j m stage stage
  | fires (time : Nat) (job : Job) : Gets s j (.fire j) (.sleeping time job) (.spawned job)
  | works (w : Work) : Gets s j (.work j) (.working w) (.worked (s.perform w).2)
  | answers (reply : Except TransportError Response) (p : Pending) (purpose : Purpose) :
      Gets s j (.answer j reply) (.posting p purpose) (.answered p (.classify reply) purpose)
  | hears (reply : Except TransportError Response) (e : Endpoint) :
      Gets s j (.answer j reply) (.asking e) (.told e (.classify reply))

/-- The stage of a task that a move brings. -/
inductive Stage.Newcomer (s : Service) : Move → Stage → Prop where
  | call (request : Request) : Newcomer s (.call request) (.starting request.job)
  | flush (status : NetworkStatus) : Newcomer s (.network status) (.spawned .flush)
  | deliver (e : Envelope) (type : SnapshotType) :
      Newcomer s (.envelope e type) (.spawned (.deliver e type))
  | final (e : Envelope) (durable : Bool) : Newcomer s (.envelope e .crash)
      (.spawned (.sendFinal e ((s.markFinalized e).persistFinal e).2.1 durable))

namespace Service

/-- From `s` to `t` a move has passed that is no step of a task. -/
structure Passes (s : Service) (m : Move) (t : Service) : Prop where
  network : (∀ status, m ≠ .network status) → t.network = s.network
  replays : t.replays = s.replays
  gets : ∀ j stage, s.stage? j = some stage →
    ∃ stage', t.stage? j = some stage' ∧ stage.Gets s j m stage'
  brings : ∀ j stage, s.stage? j = none → t.stage? j = some stage → stage.Newcomer s m
  told : ∃ hs, t.journal = hs ++ s.journal ∧ hs.filter Happening.isQueued = []

variable {s t : Service} {m : Move} {id j : Nat} {stage stage' : Stage} {task : Task}

theorem stage?_addTask_of_some (at_ : t.stage? j = some stage) (task : Task) :
    (t.addTask task).stage? j = some stage := by
  have inside : j ≠ t.tasks.length := by
    rintro rfl
    rw [stage?_length] at at_
    cases at_
  rw [stage?_addTask, if_neg inside, at_]

theorem stage_of_addTask (missing : t.stage? j = none)
    (found : (t.addTask task).stage? j = some stage) : stage = task.stage := by
  rw [stage?_addTask, missing] at found
  split at found <;> cases found
  rfl

theorem Aside.stage? (aside : Aside s t) (j : Nat) : t.stage? j = s.stage? j := by
  rw [Service.stage?, aside.tasks, Service.stage?]

theorem Aside.passes (aside : Aside s t) (m : Move) : Passes s m t where
  network _ := aside.network
  replays := aside.replays
  gets j stage at_ := ⟨stage, (aside.stage? j).trans at_, .same m stage⟩
  brings j stage missing found := by
    rw [aside.stage?, missing] at found
    cases found
  told := aside.told

theorem Aside.setStage (aside : Aside s t) (at_ : s.stage? id = some stage)
    (gets : stage.Gets s id m stage') : Passes s m (t.setStage id stage') where
  network _ := aside.network
  replays := aside.replays
  gets j old found := by
    have found' := (aside.stage? j).trans found
    by_cases self : j = id
    · subst self
      obtain rfl := Option.some.inj (at_.symm.trans found)
      exact ⟨stage', stage?_setStage_self (by simp [found']) _, gets⟩
    · exact ⟨old, (stage?_setStage_of_ne t self _).trans found', .same m old⟩
  brings j new missing found := by
    rw [stage?_setStage, aside.stage?, missing] at found
    split at found <;> cases found
  told := aside.told

theorem Aside.addTask (aside : Aside s t) (new : task.stage.Newcomer s m) :
    Passes s m (t.addTask task) where
  network _ := aside.network
  replays := aside.replays
  gets j old found :=
    ⟨old, stage?_addTask_of_some ((aside.stage? j).trans found) task, .same m old⟩
  brings j _ missing found := stage_of_addTask ((aside.stage? j).trans missing) found ▸ new
  told := aside.told

theorem wake_aside (s : Service) (id : Nat) : Aside s (s.wake id) :=
  ⟨rfl, rfl, rfl, rfl, [], rfl, rfl⟩

theorem setNetwork_passes (s : Service) (status : NetworkStatus) :
    Passes s (.network status) (s.setNetwork status) := by
  unfold setNetwork
  dsimp only
  split
  · refine ⟨fun same => absurd rfl (same status), rfl, fun j stage at_ => ?_,
      fun j stage missing found => ?_, [], rfl, rfl⟩
    · exact ⟨stage, stage?_addTask_of_some (t := ({ s with network := status } : Service).wake _)
        at_ _, .same _ stage⟩
    · rw [stage_of_addTask (t := ({ s with network := status } : Service).wake _) missing found]
      exact .flush status
  · refine ⟨fun same => absurd rfl (same status), rfl, fun j stage at_ => ?_,
      fun j stage missing found => ?_, [], rfl, rfl⟩
    · exact ⟨stage, at_, .same _ stage⟩
    · cases missing.symm.trans found

theorem sendEnvelope_passes (s : Service) (e : Envelope) (type : SnapshotType) :
    Passes s (.envelope e type) (s.sendEnvelope e type) := by
  have spawned (type : SnapshotType) :
      Passes s (.envelope e type) (s.spawn (.deliver e type)) :=
    (wake_aside s _).addTask (.deliver e type)
  cases type with
  | normalEnd | periodic => exact spawned _
  | crash =>
    have marked : Aside s (s.markFinalized e) := ⟨rfl, rfl, rfl, rfl, [], rfl, rfl⟩
    have persisted := marked.trans (persistFinal_aside (s.markFinalized e) e)
    exact (persisted.trans (wake_aside _ _)).addTask (.final e _)

/-- What a move makes of the stages that is no step of a task. -/
theorem step_passes (s : Service) (other : ∀ id, m ≠ .advance id) : Passes s m (s.step m) := by
  cases m with
  | advance id => exact absurd rfl (other id)
  | call request =>
    have woken : Aside s { s with ready := s.tasks.length :: s.ready } :=
      ⟨rfl, rfl, rfl, rfl, [], rfl, rfl⟩
    exact woken.addTask (.call request)
  | envelope e type => exact sendEnvelope_passes s e type
  | network status => exact setNetwork_passes s status
  | setClock time =>
    have set : Aside s { s with clock := time } := ⟨rfl, rfl, rfl, rfl, [], rfl, rfl⟩
    exact set.passes _
  | elapse span =>
    have passed : Aside s { s with elapsed := s.elapsed + span } :=
      ⟨rfl, rfl, rfl, rfl, [], rfl, rfl⟩
    exact passed.passes _
  | work id =>
    unfold step work
    dsimp only
    split
    case h_1 w at_ => exact (perform_aside s w).setStage at_ (.works w)
    case h_2 => exact (Aside.refl s).passes _
  | answer id reply =>
    unfold step answer
    dsimp only
    split
    case h_1 p purpose at_ => exact (Aside.refl s).setStage at_ (.answers reply p purpose)
    case h_2 e at_ => exact (Aside.refl s).setStage at_ (.hears reply e)
    case h_3 => exact (Aside.refl s).passes _
  | fire id =>
    unfold step fire
    dsimp only
    split
    case h_1 time job at_ =>
      split
      · exact (wake_aside s id).setStage at_ (.fires time job)
      · exact (Aside.refl s).passes _
    case h_2 => exact (Aside.refl s).passes _

/-! ## What holds of all stages -/

/-- Where the stage that a task has after a move comes from. -/
inductive StageFrom (s : Service) (m : Move) (j : Nat) : Stage → Prop where
  | young {stage : Stage} (young : stage.Young) : StageFrom s m j stage
  | near {old stage : Stage} (at_ : s.stage? j = some old) (near : old.Near stage) :
      StageFrom s m j stage
  | leads {old stage : Stage} {held : List (Pending × QueueReason)} (move : m = .advance j)
      (at_ : s.stage? j = some old) (leads : Leads (s.unplan old) old held stage) :
      StageFrom s m j stage
  | new {stage : Stage} (missing : s.stage? j = none) (new : stage.Newcomer s m) :
      StageFrom s m j stage
  | gets {old stage : Stage} (at_ : s.stage? j = some old) (gets : old.Gets s j m stage) :
      StageFrom s m j stage

theorem stage_from (found : (s.step m).stage? j = some stage) : StageFrom s m j stage := by
  by_cases advance : ∃ id, m = .advance id
  · obtain ⟨id, rfl⟩ := advance
    cases at_ : s.stage? id with
    | none =>
      have still : s.step (.advance id) = s := by simp only [step, Service.advance, at_]
      exact .near (still ▸ found) (.refl stage)
    | some old =>
      obtain ⟨held, last, leading, turns⟩ := advance_advances at_
      have stage? (j : Nat) : (s.unplan old).stage? j = s.stage? j := by
        rw [Service.stage?, (s.unplan_same old).2.2.1, Service.stage?]
      by_cases self : j = id
      · subst self
        obtain rfl := Option.some.inj (turns.own.symm.trans found)
        exact .leads rfl at_ leading
      cases before : s.stage? j with
      | none => exact .young (turns.young j self stage ((stage? j).trans before) found)
      | some first =>
        obtain ⟨stage', at_', moved⟩ := turns.others j self first ((stage? j).trans before)
        obtain rfl := Option.some.inj (at_'.symm.trans found)
        exact .near before moved
  · have passes := step_passes s fun id at_ => advance ⟨id, at_⟩
    cases before : s.stage? j with
    | none => exact .new before (passes.brings j stage before found)
    | some first =>
      obtain ⟨stage', at_', moved⟩ := passes.gets j first before
      obtain rfl := Option.some.inj (at_'.symm.trans found)
      exact .gets before moved

/-- What becomes of the stage of a task in one move. -/
theorem stage_after {old : Stage} (m : Move) (at_ : s.stage? j = some old) :
    ∃ stage, (s.step m).stage? j = some stage ∧ (old.Near stage ∨
      (m = .advance j ∧ ∃ held, Leads (s.unplan old) old held stage) ∨ old.Gets s j m stage) := by
  by_cases advance : ∃ id, m = .advance id
  case neg =>
    obtain ⟨stage, found, gets⟩ :=
      (step_passes s fun id same => advance ⟨id, same⟩).gets j old at_
    exact ⟨stage, found, .inr (.inr gets)⟩
  obtain ⟨id, rfl⟩ := advance
  cases moving : s.stage? id with
  | none =>
    have still : s.step (.advance id) = s := by simp only [step, Service.advance, moving]
    exact ⟨old, still.symm ▸ at_, .inl (.refl old)⟩
  | some first =>
    obtain ⟨held, last, leads, turns⟩ := advance_advances moving
    by_cases self : j = id
    · subst self
      obtain rfl := Option.some.inj (moving.symm.trans at_)
      exact ⟨last, turns.own, .inr (.inl ⟨rfl, held, leads⟩)⟩
    · have at_' : (s.unplan first).stage? j = some old := by
        rw [stage?, (s.unplan_same first).2.2.1]
        exact at_
      obtain ⟨stage, found, near⟩ := turns.others j self old at_'
      exact ⟨stage, found, .inl near⟩

/-- The moves of others get a task a lane or a worker at most, unless it sleeps. -/
theorem stage_of_others {old : Stage} (other : m.task? ≠ some j) (at_ : s.stage? j = some old) :
    ∃ stage, (s.step m).stage? j = some stage ∧
      (old.Near stage ∨ m = .fire j ∧ ∃ time job, old = .sleeping time job) := by
  obtain ⟨stage, found, near | ⟨rfl, _⟩ | gets⟩ := stage_after m at_
  · exact ⟨stage, found, .inl near⟩
  · exact absurd rfl other
  · refine ⟨stage, found, ?_⟩
    cases gets with
    | same => exact .inl (.refl _)
    | fires time job => exact .inr ⟨rfl, time, job, rfl⟩
    | works | answers | hears => exact absurd rfl other

theorem stage?_step_work {w : Work} (at_ : s.stage? j = some (.working w)) :
    (s.step (.work j)).stage? j = some (.worked (s.perform w).2) := by
  simp only [step, work, at_]
  apply stage?_setStage_self
  rw [(perform_aside s w).stage?]
  simp [at_]

/-- What holds of the stages of all tasks still does after a move, if it holds of the new ones and
nothing that becomes of a stage breaks it. -/
theorem stages_step {P : Stage → Prop} (young : ∀ stage, stage.Young → P stage)
    (near : ∀ a b, a.Near b → P a → P b)
    (leads : ∀ old held new, Leads (s.unplan old) old held new → P old → P new)
    (new : ∀ stage, stage.Newcomer s m → P stage)
    (gets : ∀ j a b, a.Gets s j m b → P a → P b)
    (all : ∀ j stage, s.stage? j = some stage → P stage) :
    ∀ j stage, (s.step m).stage? j = some stage → P stage := by
  intro j stage found
  cases stage_from found with
  | young first => exact young stage first
  | near at_ moved => exact near _ stage moved (all j _ at_)
  | leads move at_ leading => exact leads _ _ stage leading (all j _ at_)
  | new missing first => exact new stage first
  | gets at_ moved => exact gets j _ stage moved (all j _ at_)

end Service

end Outbox
