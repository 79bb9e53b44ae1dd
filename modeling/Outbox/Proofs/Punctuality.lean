import Outbox.Core
import Outbox.Proofs.Moves
import Outbox.Proofs.Succession
import Outbox.Rehearsal

/-! # Punctual checkpoints

A core makes one checkpoint in every period, as long as it is not shut down: whatever the host does
and however it fails, and in whatever parts time passes. If the timer rings late, it rings once for
each period that has passed. Nothing that the service does takes time, so only the passing of time
itself brings the next checkpoint nearer. With a period of zero there is no timer, and no checkpoint
is ever made.
-/

namespace Outbox

/-! ## What takes no time -/

namespace Service

variable {s : Service} {id : Nat}

theorem foldl_elapsed {α : Type} {f : Service → α → Service} (xs : List α)
    (step : ∀ s x, (f s x).elapsed = s.elapsed) (s : Service) :
    (xs.foldl f s).elapsed = s.elapsed := by
  induction xs generalizing s with
  | nil => rfl
  | cons x xs ih => rw [List.foldl_cons, ih, step]

@[simp]
theorem spawnAfter_elapsed (s : Service) (delay : Nat) (job : Job) :
    (s.spawnAfter delay job).elapsed = s.elapsed := by
  unfold spawnAfter
  split <;> rfl

@[simp]
theorem seat_elapsed (s : Service) (granted : List Nat) (self : Option Nat) :
    (s.seat granted self).elapsed = s.elapsed := by
  refine foldl_elapsed granted (fun s id => ?_) s
  dsimp only
  split
  · split <;> rfl
  · rfl

@[simp]
theorem enter_elapsed (s : Service) (granted : List Nat) (self : Option Nat) :
    (s.enter granted self).elapsed = s.elapsed := by
  refine foldl_elapsed granted (fun s id => ?_) s
  dsimp only
  split
  · split <;> rfl
  · rfl

@[simp]
theorem leaveLane_elapsed (s : Service) (id : Nat) (e : Endpoint) :
    (s.leaveLane id e).elapsed = s.elapsed := by
  simp [leaveLane]

@[simp]
theorem notifyParent_elapsed (s : Service) (parent : Nat) (result : Result) :
    (s.notifyParent parent result).elapsed = s.elapsed := by
  unfold notifyParent
  split
  · dsimp only
    split <;> rfl
  · rfl

@[simp]
theorem setStage_elapsed (s : Service) (id : Nat) (stage : Stage) :
    (s.setStage id stage).elapsed = s.elapsed := rfl

@[simp]
theorem finish_elapsed (s : Service) (id : Nat) (result : Result) :
    (s.finish id result).elapsed = s.elapsed := by
  unfold finish
  split
  · rfl
  · dsimp only
    split <;> split <;> simp

@[simp]
theorem report_elapsed (s : Service) (rs : List Report) : (s.report rs).elapsed = s.elapsed := rfl

@[simp]
theorem note_elapsed (s : Service) (h : Happening) : (s.note h).elapsed = s.elapsed := rfl

@[simp]
theorem emit_elapsed (s : Service) (e : Event) : (s.emit e).elapsed = s.elapsed := rfl

@[simp]
theorem wake_elapsed (s : Service) (id : Nat) : (s.wake id).elapsed = s.elapsed := rfl

@[simp]
theorem addTask_elapsed (s : Service) (t : Task) : (s.addTask t).elapsed = s.elapsed := rfl

@[simp]
theorem spawn_elapsed (s : Service) (job : Job) : (s.spawn job).elapsed = s.elapsed := rfl

@[simp]
theorem markFinalized_elapsed (s : Service) (e : Envelope) :
    (s.markFinalized e).elapsed = s.elapsed := rfl

@[simp]
theorem scheduleReplay_elapsed (s : Service) (e : Endpoint) (time : Millis) :
    (s.scheduleReplay e time).elapsed = s.elapsed := by
  unfold scheduleReplay
  dsimp only
  split <;> simp

@[simp]
theorem hold_elapsed (s : Service) (p : Pending) (reason : QueueReason) :
    (s.hold p reason).elapsed = s.elapsed := by
  unfold hold
  dsimp only
  split <;> simp

@[simp]
theorem snapshotKey?_elapsed (s : Service) (e : Envelope) :
    (s.snapshotKey? e).1.elapsed = s.elapsed := by
  unfold snapshotKey?
  split <;> rfl

@[simp]
theorem storeSnapshot_elapsed (s : Service) (e : Envelope) :
    (s.storeSnapshot e).1.elapsed = s.elapsed := by
  have key := snapshotKey?_elapsed s e
  unfold storeSnapshot
  split <;> simp_all

@[simp]
theorem deleteSnapshot_elapsed (s : Service) (e : Envelope) :
    (s.deleteSnapshot e).elapsed = s.elapsed := by
  have key := snapshotKey?_elapsed s e
  unfold deleteSnapshot
  split <;> simp_all

@[simp]
theorem writeSnapshot_elapsed (s : Service) (e : Envelope) :
    (s.writeSnapshot e).elapsed = s.elapsed := by
  have stored := storeSnapshot_elapsed s e
  unfold writeSnapshot
  split
  · split <;> simp_all
  · simp_all

@[simp]
theorem enqueue_elapsed (s : Service) (e : Endpoint) (payload : Bytes) :
    (s.enqueue e payload).1.elapsed = s.elapsed := rfl

@[simp]
theorem persistFinal_elapsed (s : Service) (e : Envelope) :
    (s.persistFinal e).1.elapsed = s.elapsed := by
  unfold persistFinal
  dsimp only
  split <;> simp

@[simp]
theorem requeue_elapsed (s : Service) (keys : List Storage.Key) :
    (s.requeue keys).1.elapsed = s.elapsed := by
  induction keys generalizing s with
  | nil => rfl
  | cons key keys ih =>
    rw [requeue]
    dsimp only
    split
    · exact ih s
    · split
      · exact ih _
      · exact ih _
      · split
        · exact ih _
        · rw [ih]
          split <;> rfl

@[simp]
theorem resurrect_elapsed (s : Service) : s.resurrect.1.elapsed = s.elapsed :=
  requeue_elapsed _ _

@[simp]
theorem perform_elapsed (s : Service) (w : Work) : (s.perform w).1.elapsed = s.elapsed := by
  cases w <;> simp [perform]

@[simp]
theorem concludeQueued_elapsed (s : Service) (id : Nat) (reason : QueueReason)
    (purpose : Purpose) : (s.concludeQueued id reason purpose).elapsed = s.elapsed := by
  cases purpose <;> simp [concludeQueued]

@[simp]
theorem attempt_elapsed (s : Service) (id : Nat) (p : Pending) (purpose : Purpose) :
    (s.attempt id p purpose).elapsed = s.elapsed := by
  unfold attempt
  split <;> simp

@[simp]
theorem drop_elapsed (s : Service) (id : Nat) (p : Pending) (reason : DropReason) (onLane : Bool)
    (purpose : Purpose) : (s.drop id p reason onLane purpose).elapsed = s.elapsed := rfl

@[simp]
theorem replayNext_elapsed (s : Service) (id : Nat) (e : Endpoint) (rest : List Pending)
    (delivered : Nat) : (s.replayNext id e rest delivered).elapsed = s.elapsed := by
  unfold replayNext
  split
  · simp
  · dsimp only
    split <;> simp

@[simp]
theorem conclude_elapsed (s : Service) (id : Nat) (outcome : SendOutcome) (purpose : Purpose) :
    (s.conclude id outcome purpose).elapsed = s.elapsed := by
  unfold conclude
  split
  case h_3 => split <;> simp
  all_goals simp

@[simp]
theorem send_elapsed (s : Service) (id : Nat) (p : Pending) (purpose : Purpose) :
    (s.send id p purpose).elapsed = s.elapsed := by
  unfold send
  split
  · simp
  · split <;> simp

@[simp]
theorem handle_elapsed (s : Service) (id : Nat) (p : Pending) (answer : Answer)
    (purpose : Purpose) : (s.handle id p answer purpose).elapsed = s.elapsed := by
  unfold handle
  split
  case h_4 => split <;> simp
  all_goals simp

@[simp]
theorem resume_elapsed (s : Service) (id : Nat) (done : Done) :
    (s.resume id done).elapsed = s.elapsed := by
  unfold resume
  split
  case h_5 => split <;> simp
  case h_6 => split <;> simp
  all_goals simp

@[simp]
theorem flush_elapsed (s : Service) (id : Nat) : (s.flush id).elapsed = s.elapsed := by
  unfold flush
  dsimp only
  generalize (if s.isOffline then [] else s.queue.endpoints) = endpoints
  split
  · simp
  · refine (foldl_elapsed endpoints (fun s e => ?_) _).trans ?_ <;> rfl

@[simp]
theorem begin_elapsed (s : Service) (id : Nat) (job : Job) :
    (s.begin id job).elapsed = s.elapsed := by
  cases job with
  | send e payload =>
    unfold begin
    dsimp only
    split <;> simp
  | deliver e type =>
    unfold begin
    dsimp only
    split
    · rfl
    · split <;> simp
  | replayAt e time =>
    unfold begin
    dsimp only
    split <;> simp
  | fetch e etag =>
    unfold begin fetch
    dsimp only
    split
    · simp
    · split <;> simp
  | _ => simp [begin]

@[simp]
theorem learn_elapsed (s : Service) (id : Nat) (e : Endpoint) (answer : Answer) :
    (s.learn id e answer).elapsed = s.elapsed := by
  cases answer <;> simp [learn]

@[simp]
theorem advance_elapsed (s : Service) (id : Nat) : (s.advance id).elapsed = s.elapsed := by
  unfold advance askWorker
  split <;> simp

@[simp]
theorem work_elapsed (s : Service) (id : Nat) : (s.work id).elapsed = s.elapsed := by
  unfold work
  split <;> simp

@[simp]
theorem answer_elapsed (s : Service) (id : Nat) (a : Answer) :
    (s.answer id a).elapsed = s.elapsed := by
  unfold answer
  split <;> rfl

@[simp]
theorem fire_elapsed (s : Service) (id : Nat) : (s.fire id).elapsed = s.elapsed := by
  unfold fire
  split
  · split <;> rfl
  · rfl

@[simp]
theorem sendEnvelope_elapsed (s : Service) (e : Envelope) (type : SnapshotType) :
    (s.sendEnvelope e type).elapsed = s.elapsed := by
  cases type <;> simp [sendEnvelope]

theorem setNetwork_elapsed (s : Service) (status : NetworkStatus) :
    (s.setNetwork status).elapsed = s.elapsed := by
  unfold setNetwork
  dsimp only
  split <;> rfl

@[simp]
theorem loadQueue_elapsed (s : Service) : s.loadQueue.1.elapsed = s.elapsed := rfl

end Service

namespace Move

/-- How much time passes in a move. -/
def span : Move → Nat
  | elapse span => span
  | _ => 0

end Move

/-- Time passes only where it is said to. -/
theorem Service.step_elapsed (s : Service) (m : Move) :
    (s.step m).elapsed = s.elapsed + m.span := by
  cases m <;> simp [Service.step, Service.call, Move.span, Service.setNetwork_elapsed]

/-! ## The life of a core -/

variable {σ : Type} {h : Host σ} {prompt : Prop} {first c : Core σ} {ticks : List (Core σ)}

/-- What can become of a running core, with the states in which the timer rang. Time passes in any
parts. If the timer is prompt, it rings before time goes on; otherwise it may ring late. -/
inductive Lives (h : Host σ) (prompt : Prop) (first : Core σ) :
    List (Core σ) → Core σ → Prop where
  | begins : Lives h prompt first [] first
  | transition {c : Core σ} {ticks : List (Core σ)} (lives : Lives h prompt first ticks c)
      (t : Transition) (time : Millis) : Lives h prompt first ticks (c.transition h t time).1
  | checkpoint {c : Core σ} {ticks : List (Core σ)} (lives : Lives h prompt first ticks c) :
      Lives h prompt first ticks (c.checkpoint h).1
  | checkpointBackground {c : Core σ} {ticks : List (Core σ)}
      (lives : Lives h prompt first ticks c) :
      Lives h prompt first ticks (c.checkpointBackground h).1
  /-- Whatever the tasks, the collector, the files, the clock and the host come to at one time. -/
  | elsewhere {c : Core σ} {ticks : List (Core σ)} (lives : Lives h prompt first ticks c)
      {service : Service} (same : service.elapsed = c.service.elapsed) (host : σ) :
      Lives h prompt first ticks { c with service, host }
  | passes {c : Core σ} {ticks : List (Core σ)} (lives : Lives h prompt first ticks c) (span : Nat)
      (within : prompt → ∀ time ∈ c.cacher.next, c.service.elapsed + span ≤ time) :
      Lives h prompt first ticks { c with service := c.service.step (.elapse span) }
  | rings {c : Core σ} {ticks : List (Core σ)} (lives : Lives h prompt first ticks c)
      (due : c.cacher.isDue c.service.elapsed = true) :
      Lives h prompt first (ticks ++ [c]) (c.tick h)

/-- What a checkpoint on the envelope that runs comes to. -/
inductive Checkpoints (h : Host σ) (c : Core σ) : Core σ → Prop where
  | nothing (idle : c.session.active = none) : Checkpoints h c { c with cacher := c.cacher.tick }
  | hands {e snapshot : Envelope} {host : σ} (active : c.session.active = some e)
      (built : h.buildFinal ⟨e, c.service.clock, .periodic⟩ c.host = (.value snapshot, host)) :
      Checkpoints h c
        { c with
          service := c.service.sendEnvelope snapshot .periodic, host, cacher := c.cacher.tick }
  | fails {e : Envelope} {answer : Attempt BuildError Envelope} {host : σ} {cause : Cause}
      (active : c.session.active = some e)
      (built : h.buildFinal ⟨e, c.service.clock, .periodic⟩ c.host = (answer, host))
      (failed : answer.outcome BuildError.text = .error cause) :
      Checkpoints h c
        { c with
          service := c.service.report
            [⟨.sessionCacheFail, "Failed to snapshot envelope " ++ e.id, some cause⟩]
          host
          cacher := c.cacher.tick }

/-- What the timer has done along a life, if this is its period. -/
structure Punctual (h : Host σ) (prompt : Prop) (first : Core σ) (period : Nat)
    (ticks : List (Core σ)) (c : Core σ) : Prop where
  running : c.cacher.isRunning = true
  /-- There was one checkpoint in each period at most. -/
  atMost : ticks.length ≤ (c.service.elapsed - first.service.elapsed) / period
  /-- There was one in each, while none is due at this moment. -/
  count : c.cacher.isDue c.service.elapsed = false →
    ticks.length = (c.service.elapsed - first.service.elapsed) / period
  /-- Those that are due can all be made at this moment. -/
  madeUp : ∃ more d, Lives h prompt first (ticks ++ more) d ∧
    d.service.elapsed = c.service.elapsed ∧ d.cacher.isDue d.service.elapsed = false
  /-- Each is made no earlier than at its time, on the envelope that runs then. -/
  each : ∀ i tick, ticks[i]? = some tick →
    first.service.elapsed + (i + 1) * period ≤ tick.service.elapsed ∧
      Checkpoints h tick (tick.tick h)
  onTime : prompt → ∀ i tick, ticks[i]? = some tick →
    tick.service.elapsed = first.service.elapsed + (i + 1) * period
  /-- There are none after the core was shut down. -/
  last : ∀ more d, Lives h prompt c.shutdown more d → more = [] ∧ d.cacher.isRunning = false

namespace Core

@[simp]
theorem take_elapsed {α : Type} (c : Core σ) (turn : Turn σ α) :
    (c.take turn).service.elapsed = c.service.elapsed := by
  unfold take
  dsimp only
  split <;> simp

/-- A checkpoint is made on the envelope that runs. -/
theorem tick_checkpoints (due : c.cacher.isDue c.service.elapsed = true) :
    Checkpoints h c (c.tick h) := by
  unfold tick
  rw [if_pos due]
  unfold checkpoint Session.checkpoint
  cases active : c.session.active with
  | none => exact .nothing active
  | some e =>
    obtain ⟨⟨answer, host⟩, built⟩ :
        ∃ r, h.buildFinal ⟨e, c.service.clock, .periodic⟩ c.host = r := ⟨_, rfl⟩
    cases outcome : answer.outcome BuildError.text with
    | ok snapshot =>
      rw [Attempt.outcome_eq_ok_iff.mp outcome] at built
      simp only [built, Attempt.outcome]
      exact .hands active built
    | error cause =>
      simp only [built, outcome]
      exact .fails active built outcome

@[simp]
theorem transition_elapsed (h : Host σ) (c : Core σ) (t : Transition) (time : Millis) :
    (c.transition h t time).1.service.elapsed = c.service.elapsed :=
  take_elapsed c _

@[simp]
theorem checkpoint_elapsed (h : Host σ) (c : Core σ) :
    (c.checkpoint h).1.service.elapsed = c.service.elapsed :=
  take_elapsed c _

@[simp]
theorem checkpointBackground_elapsed (h : Host σ) (c : Core σ) :
    (c.checkpointBackground h).1.service.elapsed = c.service.elapsed :=
  take_elapsed c _

@[simp]
theorem tick_elapsed (h : Host σ) (c : Core σ) :
    (c.tick h).service.elapsed = c.service.elapsed := by
  unfold tick
  split
  · exact checkpoint_elapsed h c
  · rfl

@[simp]
theorem recover_elapsed (service : Service) : (recover service).elapsed = service.elapsed :=
  (Service.resurrect_elapsed _).trans (Service.loadQueue_elapsed service)

/-- The timer starts with the core. -/
theorem start_cacher (h : Host σ) (service : Service) (state : ProcessState) (host : σ) :
    (start h service state host).cacher =
      .start service.config.periodicCacheInterval.toNat service.elapsed := by
  obtain ⟨ps, o, -, became⟩ := service.loadQueue.1.resurrect_filled
  have config : (recover service).config = service.config :=
    became.config.trans service.loadQueue_becomes.config
  rw [← config, ← recover_elapsed service]
  rfl

theorem start_elapsed (h : Host σ) (service : Service) (state : ProcessState) (host : σ) :
    (start h service state host).service.elapsed = service.elapsed :=
  (take_elapsed _ _).trans (recover_elapsed service)

theorem start_timer (h : Host σ) (service : Service) (state : ProcessState) (host : σ) :
    (start h service state host).cacher = .start service.config.periodicCacheInterval.toNat
      (start h service state host).service.elapsed := by
  rw [start_elapsed, start_cacher]

end Core

/-! ## Ticks -/

/-- So many checkpoints were made, and the timer is set for the next one. -/
structure Keeps (h : Host σ) (prompt : Prop) (since period : Nat) (ticks : List (Core σ))
    (c : Core σ) : Prop where
  cacher : c.cacher = ⟨period, some (since + (ticks.length + 1) * period)⟩
  after : since + ticks.length * period ≤ c.service.elapsed
  before : prompt → c.service.elapsed ≤ since + (ticks.length + 1) * period
  each : ∀ i tick, ticks[i]? = some tick →
    since + (i + 1) * period ≤ tick.service.elapsed ∧ Checkpoints h tick (tick.tick h)
  onTime : prompt → ∀ i tick, ticks[i]? = some tick →
    tick.service.elapsed = since + (i + 1) * period

variable {since period : Nat}

theorem Keeps.isDue_iff (keeps : Keeps h prompt since period ticks c) :
    c.cacher.isDue c.service.elapsed = true ↔
      since + (ticks.length + 1) * period ≤ c.service.elapsed := by
  simp [Cacher.isDue, keeps.cacher]

/-- What takes no time and leaves the timer alone changes nothing. -/
theorem Keeps.stays {d : Core σ} (keeps : Keeps h prompt since period ticks c)
    (cacher : d.cacher = c.cacher) (elapsed : d.service.elapsed = c.service.elapsed) :
    Keeps h prompt since period ticks d where
  cacher := cacher.trans keeps.cacher
  after := elapsed ▸ keeps.after
  before := elapsed ▸ keeps.before
  each := keeps.each
  onTime := keeps.onTime

theorem getElem?_concat_cases {α : Type} {xs : List α} {x y : α} {i : Nat}
    (found : (xs ++ [x])[i]? = some y) : xs[i]? = some y ∨ (i = xs.length ∧ y = x) := by
  rw [List.getElem?_append] at found
  split at found
  case isTrue => exact .inl found
  case isFalse beyond =>
    rw [List.getElem?_singleton] at found
    split at found <;> cases found
    exact .inr ⟨by omega, rfl⟩

/-- The timer rings no earlier than at its time, and is set for one period later. -/
theorem Keeps.rings (keeps : Keeps h prompt since period ticks c)
    (due : c.cacher.isDue c.service.elapsed = true) :
    Keeps h prompt since period (ticks ++ [c]) (c.tick h) := by
  have reached := keeps.isDue_iff.mp due
  have set_ : (c.tick h).cacher = c.cacher.tick := by
    unfold Core.tick
    rw [if_pos due]
    rfl
  have longer : (ticks.length + 1 + 1) * period = (ticks.length + 1) * period + period :=
    Nat.succ_mul _ _
  refine ⟨?_, ?_, ?_, ?_, ?_⟩
  · rw [set_, keeps.cacher, List.length_append, List.length_singleton, longer, ← Nat.add_assoc]
    rfl
  · rwa [Core.tick_elapsed, List.length_append, List.length_singleton]
  · intro prompt
    have early := keeps.before prompt
    rw [Core.tick_elapsed, List.length_append, List.length_singleton, longer]
    omega
  · intro i tick found
    rcases getElem?_concat_cases found with earlier | ⟨rfl, rfl⟩
    · exact keeps.each i tick earlier
    · exact ⟨reached, Core.tick_checkpoints due⟩
  · intro prompt i tick found
    rcases getElem?_concat_cases found with earlier | ⟨rfl, rfl⟩
    · exact keeps.onTime prompt i tick earlier
    · exact Nat.le_antisymm (keeps.before prompt) reached

/-- Every move of the service is a part of such a life. -/
theorem Lives.moves (lives : Lives h prompt first ticks c) (m : Move)
    (within : prompt → ∀ time ∈ c.cacher.next, c.service.elapsed + m.span ≤ time) :
    Lives h prompt first ticks { c with service := c.service.step m } := by
  cases m with
  | elapse span => exact lives.passes span within
  | _ => exact lives.elsewhere (Service.step_elapsed _ _) c.host

theorem Lives.keeps (lives : Lives h prompt first ticks c)
    (set_ : first.cacher = .start period first.service.elapsed) (some_ : period ≠ 0) :
    Keeps h prompt first.service.elapsed period ticks c := by
  induction lives with
  | begins =>
    refine ⟨?_, ?_, ?_, by simp, by simp⟩
    · rw [set_, Cacher.start, if_neg some_]
      simp
    · simp
    · simp
  | transition _ t time ih => exact ih.stays rfl (Core.transition_elapsed _ _ _ _)
  | checkpoint _ ih => exact ih.stays rfl (Core.checkpoint_elapsed _ _)
  | checkpointBackground _ ih => exact ih.stays rfl (Core.checkpointBackground_elapsed _ _)
  | elsewhere _ same host ih => exact ih.stays rfl same
  | passes _ span within ih =>
    refine ⟨ih.cacher, Nat.le_trans ih.after (Nat.le_add_right _ _), fun prompt => ?_, ih.each,
      ih.onTime⟩
    exact within prompt _ (by rw [ih.cacher]; rfl)
  | rings _ due ih => exact ih.rings due

/-- Without a timer there are no checkpoints. -/
theorem Lives.idle (lives : Lives h prompt first ticks c) (none_ : first.cacher.next = none) :
    ticks = [] ∧ c.cacher.next = none := by
  induction lives with
  | begins => exact ⟨rfl, none_⟩
  | rings _ due ih =>
    rw [Cacher.isDue, ih.2] at due
    cases due
  | _ => assumption

/-- The timer can ring, while no time passes, until it is not due any more. -/
theorem Lives.makes_up (lives : Lives h prompt first ticks c)
    (set_ : first.cacher = .start period first.service.elapsed) (some_ : period ≠ 0) :
    ∃ more d, Lives h prompt first (ticks ++ more) d ∧ d.service.elapsed = c.service.elapsed ∧
      d.cacher.isDue d.service.elapsed = false := by
  -- by induction on the time that the timer is behind, and each time it rings this is less
  generalize behind : c.service.elapsed - (first.service.elapsed + ticks.length * period) = n
  induction n using Nat.strongRecOn generalizing ticks c with
  | ind n ih =>
    cases due : c.cacher.isDue c.service.elapsed with
    | false => exact ⟨[], c, by rwa [List.append_nil], rfl, due⟩
    | true =>
      have reached := (lives.keeps set_ some_).isDue_iff.mp due
      have longer : (ticks.length + 1) * period = ticks.length * period + period :=
        Nat.succ_mul _ _
      have less : (c.tick h).service.elapsed -
          (first.service.elapsed + (ticks ++ [c]).length * period) < n := by
        rw [Core.tick_elapsed, List.length_append, List.length_singleton, longer]
        omega
      obtain ⟨more, d, rang, now_, quiet⟩ := ih _ less (lives.rings due) rfl
      rw [List.append_assoc] at rang
      exact ⟨c :: more, d, rang, now_.trans (Core.tick_elapsed h c), quiet⟩

/-- Whatever happens to a core, its timer keeps its period. -/
theorem Lives.punctual (lives : Lives h prompt first ticks c)
    (set_ : first.cacher = .start period first.service.elapsed) (some_ : period ≠ 0) :
    Punctual h prompt first period ticks c := by
  have keeps := lives.keeps set_ some_
  have after := keeps.after
  have atMost : ticks.length ≤ (c.service.elapsed - first.service.elapsed) / period :=
    (Nat.le_div_iff_mul_le (Nat.pos_of_ne_zero some_)).mpr (by omega)
  refine ⟨?_, atMost, fun quiet => ?_, lives.makes_up set_ some_, keeps.each, keeps.onTime, ?_⟩
  · rw [keeps.cacher]
    rfl
  · have early : c.service.elapsed <
        first.service.elapsed + (ticks.length + 1) * period := by
      rw [← Nat.not_le, ← keeps.isDue_iff, quiet]
      exact Bool.false_ne_true
    exact (Nat.div_eq_of_lt_le (by omega) (by omega)).symm
  · intro more d later
    obtain ⟨none_, stopped⟩ := later.idle rfl
    exact ⟨none_, by rw [Cacher.isRunning, stopped]; rfl⟩

/-- The core of a process makes one checkpoint in every period, whatever happens to it, exactly if
the period is not zero: those that are late are made up for, and with a prompt timer each is made at
its time. -/
theorem checkpoints_on_time_iff (h : Host σ) (service : Service) (state : ProcessState) (host : σ) :
    let first := Core.start h service state host
    let period := service.config.periodicCacheInterval.toNat
    (∀ prompt ticks c, Lives h prompt first ticks c → Punctual h prompt first period ticks c) ↔
      period ≠ 0 := by
  intro first period
  have set_ : first.cacher = .start period first.service.elapsed := Core.start_timer _ _ _ _
  constructor
  · intro punctual zero
    have running := (punctual True [] first .begins).running
    rw [set_, zero] at running
    cases running
  · intro some_ prompt ticks c lives
    exact lives.punctual set_ some_

/-- The core of a process with this configuration, over nothing. -/
def freshCore (config : Config) : Core Puppet :=
  .start Puppet.host (.start config toString 0 0 ⟨.absent, 0⟩ ⟨.absent, 0⟩) .foreground .fresh

theorem freshCore_elapsed (config : Config) : (freshCore config).service.elapsed = 0 :=
  Core.start_elapsed _ _ _ _

/-- The timer rings only when more than three periods of two seconds have passed, and makes up for
all three. -/
theorem checkpoints_on_time_of_default :
    (∀ prompt ticks c, Lives Puppet.host prompt (freshCore .default) ticks c →
        Punctual Puppet.host prompt (freshCore .default) 2000 ticks c) ∧
      ∃ ticks c, Lives Puppet.host False (freshCore .default) ticks c ∧ ticks.length = 3 ∧
        c.service.elapsed = 6500 := by
  have punctual : ∀ prompt ticks c, Lives Puppet.host prompt (freshCore .default) ticks c →
      Punctual Puppet.host prompt (freshCore .default) 2000 ticks c :=
    (checkpoints_on_time_iff Puppet.host _ .foreground .fresh).mpr (by decide)
  refine ⟨punctual, ?_⟩
  have passed : Lives Puppet.host False (freshCore .default) [] _ :=
    Lives.begins.passes 6500 False.elim
  obtain ⟨ticks, c, lives, now_, quiet⟩ := (punctual _ _ _ passed).madeUp
  have count := (punctual _ _ _ lives).count quiet
  have elapsed : c.service.elapsed = 6500 := by
    rw [now_, Service.step_elapsed, freshCore_elapsed]
    rfl
  rw [elapsed, freshCore_elapsed] at count
  exact ⟨ticks, c, lives, count, elapsed⟩

/-- An environment with a period of zero. -/
def careless (name : String) : Option String :=
  if name = "TELEMETRY_PERIODIC_CACHE_INTERVAL_MS" then some "0" else none

/-- The timer does not run, and no envelope has ever a checkpoint, though there is one. -/
theorem no_checkpoints_of_careless :
    (freshCore (.ofEnvironment careless)).session.active.isSome = true ∧
      (freshCore (.ofEnvironment careless)).cacher.isRunning = false ∧
      ∀ prompt ticks c, Lives Puppet.host prompt (freshCore (.ofEnvironment careless)) ticks c →
        ticks = [] ∧ c.cacher.isRunning = false := by
  have set_ : (freshCore (.ofEnvironment careless)).cacher =
      .start (Config.ofEnvironment careless).periodicCacheInterval.toNat 0 :=
    Core.start_cacher _ _ _ _
  have zero : (Config.ofEnvironment careless).periodicCacheInterval.toNat = 0 := by decide
  rw [zero] at set_
  refine ⟨by decide, by rw [set_]; rfl, fun prompt ticks c lives => ?_⟩
  obtain ⟨none_, stopped⟩ := lives.idle (by rw [set_]; rfl)
  exact ⟨none_, by rw [Cacher.isRunning, stopped]; rfl⟩

/-! ## Rehearsed time -/

namespace Rehearsal

/-- Only the service went on, and no time passed. -/
structure AtOnce (p q : Rehearsal) : Prop where
  recording : q.recording = p.recording
  elapsed : q.core.service.elapsed = p.core.service.elapsed
  core : q.core = { p.core with service := q.core.service }

variable {p q r : Rehearsal}

theorem AtOnce.refl (p : Rehearsal) : AtOnce p p := ⟨rfl, rfl, rfl⟩

theorem AtOnce.trans (first : AtOnce p q) (second : AtOnce q r) : AtOnce p r where
  recording := second.recording.trans first.recording
  elapsed := second.elapsed.trans first.elapsed
  core := by rw [second.core, first.core]

theorem AtOnce.withService {service : Service} (same : service.elapsed = p.core.service.elapsed) :
    AtOnce p (p.withService service) := ⟨rfl, same, rfl⟩

theorem nextReply_atOnce (p : Rehearsal) (e : Endpoint) : AtOnce p (p.nextReply e).1 := by
  unfold nextReply
  split
  · exact .refl p
  · exact ⟨rfl, rfl, rfl⟩

theorem poll_atOnce (fuel : Nat) (p : Rehearsal) (id : Nat) : AtOnce p (poll fuel p id) := by
  induction fuel generalizing p with
  | zero => exact .refl p
  | succ fuel ih =>
    rw [poll]
    split
    · exact .refl p
    · exact (nextReply_atOnce p _).trans
        (AtOnce.trans (.withService (Service.answer_elapsed _ _ _)) (ih _))
    · exact (nextReply_atOnce p _).trans
        (AtOnce.trans (.withService (Service.answer_elapsed _ _ _)) (ih _))
    · split
      · exact .withService rfl
      · split
        · exact AtOnce.trans (.withService (by simp)) (ih _)
        · exact .refl p

theorem turn_atOnce (p : Rehearsal) (id : Nat) : AtOnce p (p.turn id) := by
  unfold turn
  split
  · exact .withService (by simp)
  · exact poll_atOnce _ p id

theorem settle_atOnce (p : Rehearsal) : AtOnce p p.settle := by
  have settles (fuel : Nat) (p : Rehearsal) : AtOnce p (settleFor fuel p) := by
    induction fuel generalizing p with
    | zero => exact .refl p
    | succ fuel ih =>
      rw [settleFor]
      split
      · exact .refl p
      · refine AtOnce.trans (.withService ?_) ((turn_atOnce _ _).trans (ih _))
        rfl
  exact settles patience p

theorem fireAll_atOnce (p : Rehearsal) : AtOnce p p.fireAll :=
  .withService (Service.foldl_elapsed _ (fun s id => s.fire_elapsed id) _)

variable {prompt : Prop} {first : Core Puppet} {ticks : List (Core Puppet)}

theorem AtOnce.lives (now : AtOnce p q) (lives : Lives Puppet.host prompt first ticks p.core) :
    Lives Puppet.host prompt first ticks q.core := by
  rw [now.core]
  exact lives.elsewhere now.elapsed p.core.host

/-- The time of the next event is not beyond the next checkpoint. -/
theorem nextTime?_le {time next : Nat} (found : p.nextTime? = some time)
    (set_ : p.core.cacher.next = some next) : time ≤ next := by
  refine (List.min?_eq_some_iff.mp found).2 next ?_
  rw [set_]
  exact List.mem_append_right _ List.mem_cons_self

theorem moveTo_lives (lives : Lives Puppet.host prompt first ticks p.core) (time : Nat)
    (later : p.core.service.elapsed ≤ time)
    (within : p.core.service.elapsed < time → ∀ next ∈ p.core.cacher.next, time ≤ next) :
    Lives Puppet.host prompt first ticks (p.moveTo time).core := by
  rcases Nat.eq_or_lt_of_le later with now | ahead
  · exact lives.elsewhere now.symm p.core.host
  · have passed := lives.passes (time - p.core.service.elapsed) (by
      intro _ next set_
      have := within ahead next set_
      omega)
    refine passed.elsewhere ?_ p.core.host
    simp only [Service.step]
    omega

theorem tick_lives (quiet : p.recording = false)
    (lives : Lives Puppet.host prompt first ticks p.core) :
    p.tick.recording = false ∧ p.tick.core.service.elapsed = p.core.service.elapsed ∧
      ∃ more, Lives Puppet.host prompt first (ticks ++ more) p.tick.core := by
  unfold tick
  split
  case isTrue due =>
    have rang := lives.rings due
    have rung : p.core.tick Puppet.host =
        { (p.core.checkpoint Puppet.host).1 with cacher := p.core.cacher.tick } := by
      rw [Core.tick, if_pos due]
      rfl
    have made : p.checkpoint.1 = { p with core := (p.core.checkpoint Puppet.host).1 } := by
      unfold checkpoint take
      rw [if_neg (by simp [quiet])]
      rfl
    dsimp only
    rw [made]
    exact ⟨quiet, Core.checkpoint_elapsed _ _, [p.core], rung ▸ rang⟩
  case isFalse => exact ⟨quiet, rfl, [], by rwa [List.append_nil]⟩

/-- When rehearsed time passes, a core lives on, in however many parts it passes. -/
theorem advance_lives (quiet : p.recording = false)
    (lives : Lives Puppet.host prompt first ticks p.core) (span : Nat) :
    (p.advance span).recording = false ∧
      ∃ more, Lives Puppet.host prompt first (ticks ++ more) (p.advance span).core := by
  have goes (fuel : Nat) {p : Rehearsal} {ticks : List (Core Puppet)} (target : Nat)
      (quiet : p.recording = false) (lives : Lives Puppet.host prompt first ticks p.core)
      (ahead : p.core.service.elapsed ≤ target) :
      (advanceTo fuel p target).recording = false ∧
        ∃ more, Lives Puppet.host prompt first (ticks ++ more) (advanceTo fuel p target).core := by
    induction fuel generalizing p ticks with
    | zero => exact ⟨quiet, [], by rwa [List.append_nil]⟩
    | succ fuel ih =>
      rw [advanceTo]
      split
      case h_1 time found =>
        split
        case isTrue within =>
          have moved := moveTo_lives lives (max time p.core.service.elapsed)
            (Nat.le_max_right _ _) (fun later next set_ => by
              have := nextTime?_le found set_
              omega)
          have fired := (fireAll_atOnce (p.moveTo (max time p.core.service.elapsed))).lives moved
          obtain ⟨still, now_, more, rang⟩ := tick_lives (by
            rw [(fireAll_atOnce _).recording]
            exact quiet) fired
          have settled := settle_atOnce
            (p.moveTo (max time p.core.service.elapsed)).fireAll.tick
          have silent := settled.recording.trans still
          obtain ⟨silent, others, later⟩ := ih silent (settled.lives rang) (by
            rw [settled.elapsed, now_, (fireAll_atOnce _).elapsed]
            exact Nat.max_le.mpr ⟨within, ahead⟩)
          exact ⟨silent, more ++ others, by rwa [← List.append_assoc]⟩
        case isFalse beyond =>
          refine ⟨quiet, [], ?_⟩
          rw [List.append_nil]
          refine moveTo_lives lives _ ahead fun _ next set_ => ?_
          have := nextTime?_le found set_
          omega
      case h_2 none_ =>
        refine ⟨quiet, [], ?_⟩
        rw [List.append_nil]
        refine moveTo_lives lives _ ahead fun _ next set_ => ?_
        rw [nextTime?, List.min?_eq_none_iff, List.append_eq_nil_iff] at none_
        rw [Option.mem_def.mp set_] at none_
        cases none_.2
  have settled := settle_atOnce p
  exact goes patience _ (settled.recording.trans quiet) (settled.lives lives) (Nat.le_add_right _ _)

/-- Rehearsed time keeps the period of a core as well, in however many parts it passes, and each
checkpoint is made at its time. -/
theorem advances_on_time (quiet : p.recording = false) (state : ProcessState)
    (some_ : p.core.service.config.periodicCacheInterval.toNat ≠ 0) (spans : List Nat) :
    let q := p.startCore state
    ∃ ticks, Punctual Puppet.host True q.core p.core.service.config.periodicCacheInterval.toNat
      ticks (spans.foldl advance q).core := by
  intro q
  have goes (spans : List Nat) {r : Rehearsal} {ticks : List (Core Puppet)}
      (quiet : r.recording = false) (lives : Lives Puppet.host True q.core ticks r.core) :
      ∃ ticks, Lives Puppet.host True q.core ticks (spans.foldl advance r).core := by
    induction spans generalizing r ticks with
    | nil => exact ⟨ticks, lives⟩
    | cons span spans ih =>
      obtain ⟨still, more, later⟩ := advance_lives quiet lives span
      exact ih still later
  have still : q.recording = false := quiet
  obtain ⟨ticks, lives⟩ := goes spans still .begins
  exact ⟨ticks, lives.punctual (Core.start_timer _ _ _ _) some_⟩

end Rehearsal

end Outbox
