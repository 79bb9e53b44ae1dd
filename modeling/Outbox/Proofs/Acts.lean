import Outbox.Proofs.Frames

/-! # What a step of a task can do

Whatever stage a task is at, one step of it does one of a few things to the outline. All that is
proved about deliveries rests on this list.
-/

namespace Outbox

/-- What is decided about a delivery once its attempt is over. -/
inductive Verdict where
  | accept
  | hold
  | refuse (reason : DropReason)
  | count
  deriving Repr, DecidableEq

/-- What an answer decides about a delivery. -/
def Answer.verdict : Answer → Verdict
  | success _ _ => .accept
  | tooManyRequests _ => .hold
  | payloadTooLarge => .refuse .payloadTooLarge
  | failure status =>
    if 400 ≤ status.val ∧ status.val < 500 then .refuse (.rejected status) else .count
  | notModified | incomplete _ => .count

/-- What the next step of a task decides about the delivery in its hand. -/
def Phase.verdict? (config : Config) (p : Pending) : Phase → Option Verdict
  | answered a => some a.verdict
  | recorded =>
    if config.maxRetryCount.val ≤ p.retries.val then some (.refuse .stale) else some .hold
  | _ => none

/-- How a task goes on that has nothing in hand, with these deliveries still to look at. -/
inductive Onward (id : Nat) (ps : List Pending) (o : Outline) :
    List Happening → Outline → Prop where
  /-- It needs no lane any more. -/
  | rests : Onward id ps o [] (o.put id (.idle []))
  /-- It asks for the lane of the next delivery. -/
  | asks {p : Pending} {rest : List Pending} (next : p :: rest <:+ ps) :
      Onward id ps o [] ((o.put id (.waits p rest)).request id p.endpoint)
  /-- It gives up the next delivery, without having the lane. -/
  | givesUp {p : Pending} {rest : List Pending} (next : p :: rest <:+ ps) :
      Onward id ps o [.report (.drop p .stale)]
        (o.put id (.has p (.removing (.dropped .stale false)) rest))

/-- What one step of a task does. -/
inductive Act (s : Service) (id : Nat) : List Happening → Outline → Prop where
  | idle (waits : ∀ p phase, (s.view id).hand? = some (p, phase) → phase.waits = true) :
      Act s id [] s.outline
  /-- It goes on with nothing in hand. -/
  | goes {ps : List Pending} {added : List Happening} {o : Outline}
      (known : ps <:+ (s.view id).pendings ∨ ∃ e, ps = s.queue.pending e)
      (free : (s.view id).hand? = none) (away : (s.view id).position = .away)
      (next : Onward id ps s.outline added o) : Act s id added o
  /-- It has the lane and finds nothing to send. -/
  | yields {p : Pending} {rest : List Pending} {added : List Happening} {o : Outline}
      (view : s.view id = .holds p rest)
      (next : Onward id rest (s.outline.leave id p.endpoint) added o) : Act s id added o
  /-- It has the lane and sends what is in the queue. -/
  | posts {p current : Pending} {rest : List Pending} (view : s.view id = .holds p rest)
      (found : s.queue.get? p.endpoint p.id = some current)
      (free : s.suppression? current = none) :
      Act s id [.post p.endpoint current.id s.clock current.payload]
        (s.outline.put id (.has current .posted rest))
  /-- The delivery was accepted and is to leave the queue. -/
  | accepts {p : Pending} {phase : Phase} {rest : List Pending}
      (view : s.view id = .has p phase rest)
      (verdict : phase.verdict? s.config p = some .accept) :
      Act s id [] (s.outline.put id (.has p (.removing .delivered) rest))
  | holds {p : Pending} {phase : Phase} {rest : List Pending}
      (view : s.view id = .has p phase rest)
      (verdict : phase.verdict? s.config p = some .hold) :
      Act s id [] ((s.outline.leave id p.endpoint).put id (.idle []))
  /-- The delivery is given up and is to leave the queue. -/
  | refuses {p : Pending} {phase : Phase} {rest : List Pending} {reason : DropReason}
      (view : s.view id = .has p phase rest)
      (verdict : phase.verdict? s.config p = some (.refuse reason)) :
      Act s id [.report (.drop p reason)]
        (s.outline.put id (.has p (.removing (.dropped reason true)) rest))
  | counts {p : Pending} {phase : Phase} {rest : List Pending}
      (view : s.view id = .has p phase rest)
      (verdict : phase.verdict? s.config p = some .count) :
      Act s id [] (s.outline.put id (.has p (.recording s.clock) rest))
  /-- The end of a delivery is published, and the task goes on. -/
  | ends {p : Pending} {ending : Ending} {rest : List Pending} {added : List Happening}
      {o : Outline} (view : s.view id = .has p (.removed ending) rest)
      (next : Onward id rest
        (if ending.onLane then s.outline.leave id p.endpoint else s.outline) added o) :
      Act s id (added ++ [.event (ending.event p)]) o

namespace Service

variable {s t : Service} {o : Outline} {added : List Happening} {id : Nat}

/-- From `s` to `t` the task goes on with nothing in hand. -/
def Continues (id : Nat) (ps : List Pending) (s t : Service) : Prop :=
  ∃ added o, Onward id ps s.outline added o ∧ Becomes added o s t

/-- From `s` to `t` the task makes one step. -/
def Acts (id : Nat) (s t : Service) : Prop := ∃ added o, Act s id added o ∧ Becomes added o s t

theorem Continues.rests {ps : List Pending} (ends : Becomes [] (s.outline.put id (.idle [])) s t) :
    Continues id ps s t :=
  ⟨_, _, .rests, ends⟩

theorem Quiet.finish (quiet : Quiet s t) (id : Nat) (result : Result) :
    Becomes [] (s.outline.put id (.idle [])) s (t.finish id result) := by
  have ended := finish_becomes t id result
  rw [quiet.outline] at ended
  exact quiet.then ended

theorem concludeQueued_becomes (s : Service) (id : Nat) (reason : QueueReason)
    (purpose : Purpose) :
    Becomes [] (s.outline.put id (.idle [])) s (s.concludeQueued id reason purpose) := by
  cases purpose with
  | send => exact finish_becomes s id _
  | final e durable => exact finish_becomes s id _
  | replay e rest delivered => exact finish_becomes s id _

theorem attempt_continues (there : (s.stage? id).isSome) (p : Pending) (purpose : Purpose)
    {ps : List Pending} (next : p :: purpose.rest <:+ ps) :
    Continues id ps s (s.attempt id p purpose) := by
  unfold attempt
  split
  case h_1 reason _ =>
    have held := hold_quiet s p reason
    have ended := concludeQueued_becomes (s.hold p reason) id reason purpose
    rw [held.outline] at ended
    exact .rests (held.then ended)
  case h_2 =>
    have placed := setStage_becomes there (.atLane p purpose)
    have asked := placed.trans (request_becomes _ id p.endpoint (some id))
    rw [placed.outline] at asked
    exact ⟨_, _, .asks next, asked⟩

theorem drop_becomes (there : (s.stage? id).isSome) (p : Pending) (reason : DropReason)
    (onLane : Bool) (purpose : Purpose) :
    Becomes [.report (.drop p reason)]
      (s.outline.put id (.has p (.removing (.dropped reason onLane)) purpose.rest)) s
      (s.drop id p reason onLane purpose) := by
  have reported : Becomes [.report (.drop p reason)] s.outline s (s.report [.drop p reason]) := by
    have noted := note_becomes s (.report (.drop p reason))
    rwa [List.filter_cons_of_pos (Happening.isMark_drop p reason), List.filter_nil] at noted
  have placed := reported.trans (setStage_becomes (reported.isSome there)
    (.working (.remove p (.dropped reason onLane) purpose)))
  rw [reported.outline] at placed
  exact placed

theorem replayNext_continues (there : (s.stage? id).isSome) (e : Endpoint) (ps : List Pending)
    (delivered : Nat) : Continues id ps s (s.replayNext id e ps delivered) := by
  unfold replayNext
  split
  case h_1 => exact .rests (finish_becomes s id _)
  case h_2 p rest =>
    dsimp only
    split
    · have dropped := drop_becomes there p .stale false (.replay e rest delivered)
      exact ⟨_, _, .givesUp (List.suffix_refl _), dropped⟩
    · exact attempt_continues there p (.replay e rest delivered) (List.suffix_refl _)

theorem conclude_continues (there : (s.stage? id).isSome) (outcome : SendOutcome)
    (purpose : Purpose) : Continues id purpose.rest s (s.conclude id outcome purpose) := by
  cases purpose with
  | send => cases outcome <;> exact .rests (finish_becomes s id _)
  | final e durable =>
    have ends : Continues id [] s
        (if (!durable && outcome.isTerminal) = true then
          s.setStage id (.working (.discard e outcome))
        else s.finish id (.handled (some outcome))) := by
      split
      · exact .rests (setStage_becomes there (.working (.discard e outcome)))
      · exact .rests (finish_becomes s id _)
    cases outcome with
    | queued reason => exact .rests (finish_becomes s id _)
    | delivered | dropped reason | skipped => exact ends
  | replay e rest delivered =>
    cases outcome with
    | queued reason => exact .rests (finish_becomes s id _)
    | delivered => exact replayNext_continues there e rest (delivered + 1)
    | dropped reason => exact replayNext_continues there e rest delivered
    | skipped => exact replayNext_continues there e rest delivered

/-- Going on after something that led to the outline `o`. -/
theorem Becomes.continues {ps : List Pending} {u : Service} (first : Becomes added o s t)
    (next : Continues id ps t u) :
    ∃ later o', Onward id ps o later o' ∧ Becomes (later ++ added) o' s u := by
  obtain ⟨later, o', onward, became⟩ := next
  rw [first.outline] at onward
  exact ⟨later, o', onward, first.trans became⟩

theorem send_acts {p : Pending} {purpose : Purpose} (at_ : s.stage? id = some (.onLane p purpose)) :
    Acts id s (s.send id p purpose) := by
  have view : s.view id = .holds p purpose.rest := view_of_stage? at_
  have there : (s.stage? id).isSome := by simp [at_]
  unfold send
  split
  case h_1 =>
    have left := leaveLane_becomes s id p.endpoint
    obtain ⟨later, o, onward, became⟩ :=
      left.continues (conclude_continues (left.isSome there) .skipped purpose)
    rw [List.append_nil] at became
    exact ⟨_, _, .yields view onward, became⟩
  case h_2 current found =>
    split
    case h_1 reason _ =>
      have held := hold_quiet s current reason
      have left := leaveLane_becomes (s.hold current reason) id p.endpoint
      rw [held.outline] at left
      have both := held.then left
      obtain ⟨later, o, onward, became⟩ :=
        both.continues (conclude_continues (both.isSome there) (.queued reason) purpose)
      rw [List.append_nil] at became
      exact ⟨_, _, .yields view onward, became⟩
    case h_2 free =>
      have noted : Becomes [.post p.endpoint current.id s.clock current.payload] s.outline s
          (s.note (.post p.endpoint current.id s.clock current.payload)) :=
        note_becomes s (.post p.endpoint current.id s.clock current.payload)
      have placed := noted.trans (setStage_becomes (noted.isSome there) (.posting current purpose))
      rw [noted.outline] at placed
      exact ⟨_, _, .posts view found free, placed⟩

theorem Quiet.release (quiet : Quiet s t) (id : Nat) (e : Endpoint) (reason : QueueReason)
    (purpose : Purpose) :
    Becomes [] ((s.outline.leave id e).put id (.idle [])) s
      ((t.leaveLane id e).conclude id (.queued reason) purpose) := by
  have left := leaveLane_becomes t id e
  have ended := left.trans (concludeQueued_becomes (t.leaveLane id e) id reason purpose)
  rw [left.outline, quiet.outline] at ended
  exact quiet.then ended

theorem handle_acts {p : Pending} {a : Answer} {purpose : Purpose}
    (at_ : s.stage? id = some (.answered p a purpose)) :
    Acts id s (s.handle id p a purpose) := by
  have view : s.view id = .has p (.answered a) purpose.rest := view_of_stage? at_
  have there : (s.stage? id).isSome := by simp [at_]
  cases a with
  | success body etag =>
    have cleared := withLimits_quiet s (s.limits.clear p.endpoint)
    have placed := cleared.then (setStage_becomes (cleared.isSome there)
      (.working (.remove p .delivered purpose)))
    exact ⟨_, _, .accepts view rfl, placed⟩
  | tooManyRequests retryAfter =>
    have limited := withLimits_quiet s (s.limits.reject p.endpoint retryAfter s.clock).1
    have told := limited.trans (emit_quiet
      (e := .rateLimited p.endpoint (s.limits.reject p.endpoint retryAfter s.clock).2) rfl)
    have planned := told.trans (scheduleReplay_quiet _ p.endpoint
      (s.limits.reject p.endpoint retryAfter s.clock).2)
    have queued := planned.trans (emit_quiet (e := .queued p.endpoint p.id .rateLimited) rfl)
    exact ⟨_, _, .holds view rfl, queued.release id p.endpoint .rateLimited purpose⟩
  | payloadTooLarge =>
    exact ⟨_, _, .refuses view rfl, drop_becomes there p .payloadTooLarge true purpose⟩
  | failure status =>
    by_cases client : 400 ≤ status.val ∧ status.val < 500
    · have dropped := drop_becomes there p (.rejected status) true purpose
      have verdict : (Answer.failure status).verdict = .refuse (.rejected status) := if_pos client
      refine ⟨_, _, .refuses view (congrArg some verdict), ?_⟩
      rw [handle, if_pos client]
      exact dropped
    · have placed := setStage_becomes there (.working (.record p s.clock purpose))
      have verdict : (Answer.failure status).verdict = .count := if_neg client
      refine ⟨_, _, .counts view (congrArg some verdict), ?_⟩
      rw [handle, if_neg client]
      exact placed
  | notModified =>
    exact ⟨_, _, .counts view rfl, setStage_becomes there (.working (.record p s.clock purpose))⟩
  | incomplete error =>
    exact ⟨_, _, .counts view rfl, setStage_becomes there (.working (.record p s.clock purpose))⟩

theorem resume_acts {done : Done} (at_ : s.stage? id = some (.worked done)) :
    Acts id s (s.resume id done) := by
  have there : (s.stage? id).isSome := by simp [at_]
  have shown := view_of_stage? at_
  cases done with
  | enqueued p =>
    obtain ⟨added, o, onward, became⟩ :=
      attempt_continues there p .send (List.suffix_refl [p])
    have known : [p] <:+ (s.view id).pendings := by
      rw [shown]
      exact List.suffix_refl _
    exact ⟨_, _, .goes (.inl known) (by rw [shown]; rfl) (by rw [shown]; rfl) onward, became⟩
  | persisted e p durable =>
    obtain ⟨added, o, onward, became⟩ :=
      attempt_continues there p (.final e durable) (List.suffix_refl [p])
    have known : [p] <:+ (s.view id).pendings := by
      rw [shown]
      exact List.suffix_refl _
    exact ⟨_, _, .goes (.inl known) (by rw [shown]; rfl) (by rw [shown]; rfl) onward, became⟩
  | cached | discarded outcome | resurrected n =>
    have known : [] <:+ (s.view id).pendings := List.nil_suffix
    exact ⟨_, _, .goes (.inl known) (by rw [shown]; rfl) (by rw [shown]; rfl) .rests,
      finish_becomes s id _⟩
  | recorded p time purpose =>
    by_cases ceiling : s.config.maxRetryCount.val ≤ p.retries.val
    · have verdict : Phase.recorded.verdict? s.config p = some (.refuse .stale) := if_pos ceiling
      rw [resume, if_pos ceiling]
      exact ⟨_, _, .refuses shown verdict, drop_becomes there p .stale true purpose⟩
    · have verdict : Phase.recorded.verdict? s.config p = some .hold := if_neg ceiling
      have planned := scheduleReplay_quiet s p.endpoint (s.retryTime p time)
      have queued := planned.trans
        (emit_quiet (e := .queued p.endpoint p.id .retryScheduled) rfl)
      rw [resume, if_neg ceiling]
      exact ⟨_, _, .holds shown verdict, queued.release id p.endpoint .retryScheduled purpose⟩
  | removed p ending purpose =>
    have told : Becomes [.event (ending.event p)] s.outline s (s.emit (ending.event p)) := by
      have noted := note_becomes s (.event (ending.event p))
      rwa [List.filter_cons_of_pos (Happening.isMark_end p ending), List.filter_nil] at noted
    have left := told.trans (leaveLane_becomes _ id p.endpoint)
    rw [told.outline, List.nil_append] at left
    cases ending with
    | delivered =>
      obtain ⟨later, o, onward, became⟩ :=
        left.continues (conclude_continues (left.isSome there) .delivered purpose)
      exact ⟨_, _, .ends shown onward, became⟩
    | dropped reason onLane =>
      cases onLane with
      | true =>
        obtain ⟨later, o, onward, became⟩ :=
          left.continues (conclude_continues (left.isSome there) (.dropped reason) purpose)
        exact ⟨_, _, .ends shown onward, became⟩
      | false =>
        obtain ⟨later, o, onward, became⟩ :=
          told.continues (conclude_continues (told.isSome there) (.dropped reason) purpose)
        exact ⟨_, _, .ends shown onward, became⟩

/-! ## Beginning -/

/-- A task that has nothing in hand, and asks for no lane, has nothing to do with deliveries. -/
theorem Becomes.acts (free : (s.view id).hand? = none) (away : (s.view id).position = .away)
    (ends : Becomes [] (s.outline.put id (.idle [])) s t) : Acts id s t := by
  have known : [] <:+ (s.view id).pendings := List.nil_suffix
  exact ⟨_, _, .goes (.inl known) free away .rests, ends⟩

theorem flush_becomes (there : (s.stage? id).isSome) :
    Becomes [] (s.outline.put id (.idle [])) s (s.flush id) := by
  unfold flush
  generalize (if s.isOffline = true then [] else s.queue.endpoints) = endpoints
  dsimp only
  split
  · exact finish_becomes s id _
  · have spread (es : List Endpoint) (t : Service) : Quiet t (es.foldl (fun s e =>
        (s.wake s.tasks.length).addTask ⟨false, some id, .starting (.replay e)⟩) t) := by
      induction es generalizing t with
      | nil => exact .refl t
      | cons e es ih =>
        have added : Quiet t
            ((t.wake t.tasks.length).addTask ⟨false, some id, .starting (.replay e)⟩) :=
          (wake_quiet t _).trans (addTask_quiet _ rfl)
        exact added.trans (ih _)
    exact (setStage_becomes there (.joining endpoints.length 0)).quiet (spread endpoints _)

theorem fetch_becomes (there : (s.stage? id).isSome) (e : Endpoint) (etag : Option String) :
    Becomes [] (s.outline.put id (.idle [])) s (s.fetch id e etag) := by
  unfold fetch
  split
  · exact finish_becomes s id _
  · split
    · exact finish_becomes s id _
    · have noted : Quiet s (s.note (.get e s.clock etag)) := note_becomes s (.get e s.clock etag)
      exact noted.then (setStage_becomes (noted.isSome there) (.asking e))

theorem learn_becomes (s : Service) (id : Nat) (e : Endpoint) (a : Answer) :
    Becomes [] (s.outline.put id (.idle [])) s (s.learn id e a) := by
  cases a with
  | success body etag => exact (withLimits_quiet s (s.limits.clear e)).finish id _
  | notModified => exact (withLimits_quiet s (s.limits.clear e)).finish id _
  | tooManyRequests retryAfter =>
    have limited := withLimits_quiet s (s.limits.reject e retryAfter s.clock).1
    have told := limited.trans (emit_quiet
      (e := .rateLimited e (s.limits.reject e retryAfter s.clock).2) rfl)
    exact told.finish id (.fetched .rateLimited)
  | payloadTooLarge | failure status | incomplete error => exact finish_becomes s id _

theorem begin_acts {job : Job} (at_ : s.stage? id = some (.starting job)) :
    Acts id s (s.begin id job) := by
  have there : (s.stage? id).isSome := by simp [at_]
  have shown : s.view id = .idle job.pendings := view_of_stage? at_
  have free : (s.view id).hand? = none := by rw [shown]; rfl
  have away : (s.view id).position = .away := by rw [shown]; rfl
  cases job with
  | send e payload =>
    apply Becomes.acts free away
    unfold begin
    dsimp only
    split
    · have plain : Report.Plain
          ⟨.deliveryDataLoss, e.name ++ " does not accept payloads", none⟩ := by
        cases e with
        | sessions | logs | crashes | network | config =>
          exact Report.plain_of_start (head?_toList_append (by rfl)) (by decide)
      have reported : Quiet s
          (s.report [⟨.deliveryDataLoss, e.name ++ " does not accept payloads", none⟩]) :=
        report_quiet (by simpa using plain)
      exact reported.finish id (.sent (.dropped .unsupportedEndpoint))
    · exact setStage_becomes there (.working (.enqueue e payload))
  | deliver e type =>
    apply Becomes.acts free away
    unfold begin
    dsimp only
    split
    · have marked : Quiet s (s.markFinalized e) := .aside rfl rfl rfl rfl rfl rfl rfl
      exact marked.then (setStage_becomes (marked.isSome there) (.working (.persist e)))
    · split
      · exact finish_becomes s id _
      · exact setStage_becomes there (.working (.cache e))
  | sendFinal e p durable =>
    obtain ⟨added, o, onward, became⟩ :=
      attempt_continues there p (.final e durable) (List.suffix_refl [p])
    have known : [p] <:+ (s.view id).pendings := by
      rw [shown]
      exact List.suffix_refl _
    exact ⟨_, _, .goes (.inl known) free away onward, became⟩
  | flush => exact Becomes.acts free away (flush_becomes there)
  | replay e =>
    obtain ⟨added, o, onward, became⟩ := replayNext_continues there e (s.queue.pending e) 0
    exact ⟨_, _, .goes (.inr ⟨e, rfl⟩) free away onward, became⟩
  | replayAt e time =>
    have forgot : Quiet s (if s.replays.get e = some time then
        { s with replays := s.replays.set e none } else s) := by
      split
      · exact withReplays_quiet s _
      · exact .refl s
    have same : (if s.replays.get e = some time then
        { s with replays := s.replays.set e none } else s : Service).queue = s.queue := by
      split <;> rfl
    obtain ⟨added, o, onward, became⟩ :=
      Becomes.continues forgot (replayNext_continues (forgot.isSome there) e
        (s.queue.pending e) 0)
    rw [List.append_nil] at became
    refine ⟨_, _, .goes (.inr ⟨e, rfl⟩) free away onward, ?_⟩
    unfold begin
    dsimp only
    rw [same]
    exact became
  | fetch e etag => exact Becomes.acts free away (fetch_becomes there e etag)
  | resurrect => exact Becomes.acts free away (setStage_becomes there (.working .resurrect))

theorem askWorker_quiet {job : Job} (at_ : s.stage? id = some (.spawned job)) :
    Quiet s (s.askWorker id job) := by
  have placed : Quiet s (s.setStage id (.atWorkers job)) := setStage_quiet at_ rfl
  exact (placed.trans (withWorkers_quiet _ _)).trans (seat_quiet _ _ (some id))

theorem advance_acts (s : Service) (id : Nat) : Acts id s (s.advance id) := by
  have idle {t : Service} (quiet : Quiet s t)
      (waits : ∀ p phase, (s.view id).hand? = some (p, phase) → phase.waits = true) :
      Acts id s t :=
    ⟨_, _, .idle waits, quiet⟩
  unfold advance
  split
  case h_1 job at_ =>
    apply idle (askWorker_quiet at_)
    rw [view_of_stage? at_]
    simp [Stage.view, View.idle]
  case h_2 job at_ => exact begin_acts at_
  case h_3 done at_ => exact resume_acts at_
  case h_4 p purpose at_ => exact send_acts at_
  case h_5 p a purpose at_ => exact handle_acts at_
  case h_6 e a at_ =>
    refine Becomes.acts ?_ ?_ (learn_becomes s id e a) <;> rw [view_of_stage? at_] <;> rfl
  case h_7 delivered at_ =>
    refine Becomes.acts ?_ ?_ (finish_becomes s id _) <;> rw [view_of_stage? at_] <;> rfl
  case h_8 spawned starting worked onLane answered told joining =>
    apply idle (.refl s)
    intro p phase inHand
    rw [view] at inHand
    split at inHand
    case h_2 => cases inHand
    case h_1 stage found =>
      cases stage with
      | posting q purpose => cases inHand; rfl
      | answered q a purpose => exact absurd found (answered q a purpose)
      | worked done => exact absurd found (worked done)
      | working w =>
        cases w with
        | remove q ending purpose => cases inHand; rfl
        | record q time purpose => cases inHand; rfl
        | _ => cases inHand
      | _ => cases inHand

end Service

end Outbox
