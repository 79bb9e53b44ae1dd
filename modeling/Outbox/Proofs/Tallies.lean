import Outbox.Proofs.Conservation
import Outbox.Proofs.Overlap

/-! # Attempts are counted once

A task that sends a delivery has its lane, so it is alone with it until it has counted the attempt.
The count goes up by one for each answer that says nothing about the payload, and for nothing else.
So the copies that other tasks remember from before, whose counts are too low, are never stored.
-/

namespace Outbox

/-- There was no answer, or one that says that the collector has failed. -/
def failsAttempt : Except TransportError Response → Bool
  | .error _ => true
  | .ok r =>
    !(decide (200 ≤ r.status.val ∧ r.status.val ≤ 299) ||
      decide (400 ≤ r.status.val ∧ r.status.val ≤ 499))

/-- These are the answers after which an attempt is counted. -/
theorem verdict_classify_eq_count {reply : Except TransportError Response} :
    (Answer.classify reply).verdict = .count ↔ failsAttempt reply = true := by
  cases reply with
  | error e => simp [Answer.classify, Answer.verdict, failsAttempt]
  | ok r =>
    simp only [Answer.classify, failsAttempt, Bool.not_eq_true', Bool.or_eq_false_iff,
      decide_eq_false_iff_not]
    split
    case isTrue accepted => simp [Answer.verdict, accepted]
    split
    case isTrue unchanged => simp [Answer.verdict, unchanged]
    split
    case isTrue large => simp [Answer.verdict, large]
    split
    case isTrue many => simp [Answer.verdict, many]
    simp only [Answer.verdict]
    split <;> simp <;> omega

namespace Phase

/-- The attempt has failed and is not counted yet. -/
def owes : Phase → Bool
  | answered a => a.verdict == .count
  | recording _ => true
  | posted | recorded | removing _ | removed _ => false

/-- The delivery was tried too often and is not out of the queue yet. -/
def spends (max : Word32) (p : Pending) : Phase → Bool
  | recorded => max.val ≤ p.retries.val
  | removing (.dropped .stale true) => true
  | _ => false

/-- What the count will be when the task is done with the delivery. -/
def tally (p : Pending) (phase : Phase) : Word32 :=
  if phase.owes then .clamp (p.retries.val + 1) Word32.bounds else p.retries

theorem isLive_of_owes {phase : Phase} (owes : phase.owes = true) : phase.isLive = true := by
  cases phase with
  | answered a | recording time => rfl
  | posted | recorded | removing ending | removed ending => cases owes

theorem owes_of_count {config : Config} {p : Pending} {phase : Phase}
    (decided : phase.verdict? config p = some .count) : phase.owes = true := by
  cases phase with
  | answered a =>
    rw [verdict?, Option.some.injEq] at decided
    simp [owes, decided]
  | recorded =>
    simp only [verdict?] at decided
    split at decided <;> cases decided
  | posted | recording time | removing ending | removed ending => cases decided

theorem not_spends_of_owes {max : Word32} {p : Pending} {phase : Phase}
    (owes : phase.owes = true) : phase.spends max p = false := by
  cases phase with
  | answered a | recording time => rfl
  | posted | recorded | removing ending | removed ending => cases owes

theorem onLane_of_spends {max : Word32} {p : Pending} {phase : Phase}
    (spends : phase.spends max p = true) : phase.onLane = true := by
  cases phase with
  | removing ending =>
    cases ending with
    | delivered => cases spends
    | dropped reason onLane =>
      cases reason <;> cases onLane <;> first | rfl | cases spends
  | recorded => rfl
  | _ => cases spends

end Phase

/-! ## What becomes of a delivery in hand -/

/-- All that a move can do with a delivery that a task has in hand. -/
inductive Handles (s : Service) (m : Move) (j : Nat) (p : Pending) (o : Outline) :
    Phase → Option (Pending × Phase) → Prop where
  | stays (phase : Phase) : Handles s m j p o phase (some (p, phase))
  | answers (reply : Except TransportError Response) (move : m = .answer j reply) :
      Handles s m j p o .posted (some (p, .answered (.classify reply)))
  | decides {phase : Phase} {verdict : Verdict} (move : m = .advance j)
      (decided : phase.verdict? s.config p = some verdict) :
      Handles s m j p o phase ((verdict.phase? s.clock).map fun next => (p, next))
  | records (time : Millis) (move : m = .work j)
      (queue : o.queue = (s.queue.save (p.failed time)).1) :
      Handles s m j p o (.recording time) (some (p.failed time, .recorded))
  | removes (ending : Ending) (move : m = .work j) (queue : o.queue = (s.queue.remove p).1) :
      Handles s m j p o (.removing ending) (some (p, .removed ending))
  | ends (ending : Ending) {hand : Option (Pending × Phase)} (move : m = .advance j)
      (past : ∀ q phase, hand = some (q, phase) → phase = .removing (.dropped .stale false)) :
      Handles s m j p o (.removed ending) hand

section

variable {s : Service} {m : Move} {j : Nat} {p : Pending} {phase : Phase} {o : Outline}
  {added : List Happening}

theorem Moved.handles (moved : Moved s m added o) (hand : (s.view j).hand? = some (p, phase)) :
    Handles s m j p o phase (o.view j).hand? := by
  have stays (same : (o.view j).hand? = (s.view j).hand?) :
      Handles s m j p o phase (o.view j).hand? := by
    rw [same, hand]
    exact .stays phase
  by_cases mover : m.task? = some j
  case neg => exact stays (moved.hand?_of_ne mover)
  cases moved with
  | quiet => exact stays rfl
  | arrives => cases mover
  | @acts id _ _ act =>
    cases mover
    cases act with
    | idle => exact stays rfl
    | goes known free away next =>
      rw [free] at hand
      cases hand
    | yields view next | posts view found free =>
      rw [view] at hand
      cases hand
    | ends view next =>
      rw [view] at hand
      cases hand
      exact .ends _ rfl fun q phase there => next.phase there
    | accepts view decided | holds view decided | refuses view decided | counts view decided =>
      rw [view] at hand
      cases hand
      rw [Outline.put_view_self]
      exact .decides rfl decided
  | @works id _ deed =>
    cases mover
    cases deed with
    | idle => exact stays rfl
    | fills made one free away =>
      rw [free] at hand
      cases hand
    | removes view =>
      rw [view] at hand
      cases hand
      rw [Outline.put_view_self]
      exact .removes _ rfl rfl
    | records view =>
      rw [view] at hand
      cases hand
      rw [Outline.put_view_self]
      exact .records _ rfl rfl
  | answers reply view =>
    cases mover
    rw [view] at hand
    cases hand
    rw [Outline.put_view_self]
    exact .answers reply rfl

/-- A task takes a delivery in hand to send what it finds in the queue, or to give it up. -/
theorem Moved.picks (tidy : s.queue.Tidy) (moved : Moved s m added o)
    (free : (s.view j).hand? = none) (hand : (o.view j).hand? = some (p, phase)) :
    phase = .removing (.dropped .stale false) ∨
      phase = .posted ∧ s.queue.Holds p ∧ (s.view j).position = .holds p.endpoint := by
  have stays (same : (o.view j).hand? = (s.view j).hand?) : False := by
    rw [same, free] at hand
    cases hand
  by_cases mover : m.task? = some j
  case neg => exact (stays (moved.hand?_of_ne mover)).elim
  have onward {ps : List Pending} {o₀ : Outline} {later : List Happening}
      (next : Onward j ps o₀ later o) : phase = .removing (.dropped .stale false) :=
    next.phase hand
  have taken {q : Pending} {before : Phase} {rest : List Pending}
      (view : s.view j = .has q before rest) : False := by
    rw [view] at free
    cases free
  cases moved with
  | quiet => exact (stays rfl).elim
  | arrives => cases mover
  | @acts id _ _ act =>
    cases mover
    cases act with
    | idle => exact (stays rfl).elim
    | goes known free away next | yields view next => exact .inl (onward next)
    | posts view found due =>
      obtain ⟨endpoint, name, held⟩ := tidy.get?_eq_some_iff.mp found
      rw [Outline.put_view_self] at hand
      cases hand
      refine .inr ⟨rfl, held, ?_⟩
      rw [view, endpoint]
      rfl
    | ends view | accepts view | holds view | refuses view | counts view =>
      exact (taken view).elim
  | @works id _ deed =>
    cases mover
    cases deed with
    | idle => exact (stays rfl).elim
    | fills made one free away =>
      rw [Outline.put_view_self] at hand
      cases hand
    | removes view | records view => exact (taken view).elim
  | answers reply view =>
    cases mover
    exact (taken view).elim

end

/-! ## What is due -/

namespace Service

variable {s : Service} {home home' : Homes} {id : String} {m : Move} {j : Nat} {p : Pending}
  {phase : Phase} {due : String → Nat}

/-- The id of the delivery whose attempt a move fails. -/
def fails (s : Service) : Move → Option String
  | .answer task reply =>
    match s.stage? task with
    | some (.posting p _) => if failsAttempt reply then some p.id else none
    | _ => none
  | _ => none

/-- The ids of the deliveries whose attempts fail in a run. -/
def failures (s : Service) : List Move → List String
  | [] => []
  | m :: ms => (s.fails m).toList ++ (s.step m).failures ms

theorem fails_answer (hand : s.hand? j = some (p, .posted))
    (reply : Except TransportError Response) :
    s.fails (.answer j reply) = if failsAttempt reply then some p.id else none := by
  obtain ⟨purpose, at_⟩ := stage_of_posted hand
  simp only [fails, at_]

theorem fails_eq_some (failed : s.fails m = some id) :
    ∃ k q a, s.hand? k = some (q, .posted) ∧ q.id = id ∧ a.verdict = .count ∧
      (s.step m).hand? k = some (q, .answered a) := by
  unfold fails at failed
  split at failed
  case h_2 => cases failed
  case h_1 task reply =>
    split at failed
    case h_2 => cases failed
    case h_1 q purpose at_ =>
      split at failed
      case isFalse => cases failed
      case isTrue failing =>
        have hand : s.hand? task = some (q, .posted) := by
          rw [hand?, view_of_stage? at_]
          rfl
        exact ⟨task, q, .classify reply, hand, Option.some.inj failed,
          verdict_classify_eq_count.mpr failing, answer_hand? hand reply⟩

theorem hand_step (hand : s.hand? j = some (p, phase)) (m : Move) :
    Handles s m j p (s.step m).outline phase ((s.step m).hand? j) := by
  obtain ⟨added, o, moved, became⟩ := step_moved s m
  show Handles s m j p (s.step m).outline phase ((s.step m).outline.view j).hand?
  rw [became.outline]
  exact moved.handles hand

theorem picks_step (tidy : s.queue.Tidy) (free : s.hand? j = none)
    (hand : (s.step m).hand? j = some (p, phase)) :
    phase = .removing (.dropped .stale false) ∨
      phase = .posted ∧ s.queue.Holds p ∧ (s.view j).position = .holds p.endpoint := by
  obtain ⟨added, o, moved, became⟩ := step_moved s m
  refine moved.picks tidy free ?_
  rw [← became.outline]
  exact hand

/-- Who has the lane is the only one who may have the delivery in hand there. -/
theorem Sound.eq_of_holds (sound : s.Sound home) {x q : Pending} {k : Nat}
    (held : s.queue.Holds x) (holds : (s.view j).position = .holds x.endpoint)
    (hand : s.hand? k = some (q, phase)) (same : q.id = x.id) (onLane : phase.onLane = true) :
    k = j := by
  have there := sound.home_of_hand? hand
  rw [same, sound.traced.queue x held, Option.some.injEq] at there
  have taken := holds_of_hand? hand onLane
  rw [← there] at taken
  exact sound.order.lanes.eq_of_holds taken holds

/-- So many attempts are due for each delivery: the queue shows them, unless a task is about to
count one. -/
structure Tally (home : Homes) (due : String → Nat) (s : Service) : Prop where
  queued : ∀ x, s.queue.Holds x →
    (∀ j p phase, s.hand? j = some (p, phase) → p.id = x.id → phase.owes = false) →
    x.retries = .clamp (due x.id) Word32.bounds
  inHand : ∀ j p phase, s.hand? j = some (p, phase) → phase.isLive = true →
    phase.tally p = .clamp (due p.id) Word32.bounds
  unused : ∀ id, home id = none → due id = 0

/-- What is due after a move. -/
def dueAfter (s : Service) (m : Move) (due : String → Nat) (id : String) : Nat :=
  due id + (s.fails m).toList.count id

theorem dueAfter_of_ne (other : s.fails m ≠ some id) : s.dueAfter m due id = due id := by
  rw [dueAfter]
  cases failed : s.fails m with
  | none => rfl
  | some i =>
    have differ : i ≠ id := fun same => other (same ▸ failed)
    simp [differ]

theorem dueAfter_of_fails (failed : s.fails m = some id) :
    s.dueAfter m due id = due id + 1 := by
  simp [dueAfter, failed]

theorem clamp_succ (n : Nat) :
    (.clamp ((.clamp (n : Int) Word32.bounds : Word32).val + 1) Word32.bounds : Word32) =
      .clamp ((n + 1 : Nat) : Int) Word32.bounds := by
  ext
  simp only [Ranged.val_clamp]
  omega

/-- The tally of a task that goes on with the delivery in its hand. -/
theorem Tally.handled (tally : s.Tally home due) (sound : s.Sound home) {q : Pending}
    {before : Phase} (had : s.hand? j = some (q, before))
    (hand : (s.step m).hand? j = some (p, phase)) (live : phase.isLive = true) :
    phase.tally p = .clamp (s.dueAfter m due p.id) Word32.bounds := by
  have handles := hand_step had m
  have alone (failed : s.fails m = some q.id) (live : before.isLive = true) :
      before = .posted ∧ ∃ a, (s.step m).hand? j = some (q, .answered a) := by
    obtain ⟨k, x, a, posted, name, _, answered⟩ := fails_eq_some failed
    obtain rfl := sound.eq_of_hand? posted had name rfl (Phase.onLane_of_isLive live)
    rw [had] at posted
    cases posted
    exact ⟨rfl, a, answered⟩
  generalize after : (s.step m).hand? j = now at handles
  rw [hand] at after
  cases handles with
  | stays =>
    cases after
    rw [dueAfter_of_ne]
    · exact tally.inHand j p phase had live
    · intro failed
      obtain ⟨rfl, a, answered⟩ := alone failed live
      rw [hand] at answered
      cases answered
  | answers reply move =>
    cases after
    have counted := tally.inHand j p .posted had rfl
    have due_ := fails_answer had reply
    rw [← move] at due_
    by_cases failing : failsAttempt reply = true
    · rw [if_pos failing] at due_
      have owes : (Phase.answered (.classify reply)).owes = true := by
        simp [Phase.owes, verdict_classify_eq_count.mpr failing]
      rw [dueAfter_of_fails due_, ← clamp_succ, ← counted, Phase.tally, if_pos owes]
      rfl
    · rw [if_neg failing] at due_
      have even : (Phase.answered (.classify reply)).owes = false := by
        have other := mt verdict_classify_eq_count.mp failing
        simp [Phase.owes, other]
      rw [dueAfter_of_ne (by rw [due_]; nofun), ← counted, Phase.tally, even]
      rfl
  | @decides _ verdict move decided =>
    rw [dueAfter_of_ne (by rw [move]; nofun)]
    cases verdict with
    | accept | refuse reason =>
      cases after
      cases live
    | hold => cases after
    | count =>
      cases after
      have owes := Phase.owes_of_count decided
      have counted := tally.inHand j p before had (Phase.isLive_of_owes owes)
      rwa [Phase.tally, if_pos owes] at counted
  | records time move queue =>
    cases after
    have counted := tally.inHand j q (.recording time) had rfl
    rw [dueAfter_of_ne (by rw [move]; nofun)]
    exact counted
  | removes =>
    cases after
    cases live
  | ends ending move past =>
    rw [past p phase after.symm] at live
    cases live

/-- Whoever owes an attempt goes on owing it, or counts it. -/
theorem owing_step {q : Pending} (had : s.hand? j = some (q, phase)) (owes : phase.owes = true)
    (m : Move) :
    (∃ next, (s.step m).hand? j = some (q, next) ∧ next.owes = true) ∨
      ∃ time, phase = .recording time ∧ m = .work j ∧
        (s.step m).queue = (s.queue.save (q.failed time)).1 := by
  have handles := hand_step had m
  generalize after : (s.step m).hand? j = now at handles
  cases handles with
  | stays => exact .inl ⟨phase, rfl, owes⟩
  | answers => cases owes
  | @decides _ verdict move decided =>
    cases phase with
    | answered a =>
      have counts : a.verdict = .count := by simpa [Phase.owes] using owes
      rw [Phase.verdict?, counts, Option.some.injEq] at decided
      subst decided
      exact .inl ⟨_, rfl, rfl⟩
    | recording time => cases decided
    | posted | recorded | removing ending | removed ending => cases owes
  | records time move queue => exact .inr ⟨time, rfl, move, queue⟩
  | removes | ends => cases owes

theorem retries_of_arrival (new : p ∈ s.arrivals m) : p.retries = 0 := by
  rw [← (s.arrivals_ids m).2.2.2 p new]
  rfl

theorem Sound.home_of_arrival (sound : s.Sound home) (new : p ∈ s.arrivals m) :
    home p.id = none := by
  obtain ⟨k, later, _, name⟩ := id_of_arrival new
  rw [name]
  exact sound.traced.fresh k later

theorem Sound.not_fails_of_unused (sound : s.Sound home) (unused : home id = none) :
    s.fails m ≠ some id := by
  intro failed
  obtain ⟨k, q, a, hand, rfl, _⟩ := fails_eq_some failed
  rw [sound.home_of_hand? hand] at unused
  cases unused

/-- The tally of what is in the queue after a move. -/
theorem Tally.stored (tally : s.Tally home due) (sound : s.Sound home) {x : Pending}
    (held : (s.step m).queue.Holds x)
    (nobody : ∀ j p phase, (s.step m).hand? j = some (p, phase) → p.id = x.id →
      phase.owes = false) : x.retries = .clamp (s.dueAfter m due x.id) Word32.bounds := by
  have same : s.dueAfter m due x.id = due x.id := by
    refine dueAfter_of_ne fun failed => ?_
    obtain ⟨k, q, a, _, name, counts, hand⟩ := fails_eq_some failed
    have even := nobody k q _ hand name
    simp [Phase.owes, counts] at even
  rw [same]
  rcases holds_step held with before | new | again
  · by_cases someone : ∃ j p phase, s.hand? j = some (p, phase) ∧ p.id = x.id ∧
        phase.owes = true
    · obtain ⟨j, q, phase, had, name, owes⟩ := someone
      rcases owing_step had owes m with ⟨next, hand, still⟩ | ⟨time, rfl, _, queue⟩
      · rw [nobody j q next hand name] at still
        cases still
      · rw [queue] at held
        rcases Queue.holds_save held with rfl | ⟨_, other⟩
        · exact tally.inHand j q _ had rfl
        · have there := sound.traced.queue x before
          rw [← name, sound.home_of_hand? had, Option.some.injEq] at there
          exact absurd ⟨there.symm, name.symm⟩ other
    · refine tally.queued x before fun j p phase had name => ?_
      rw [Bool.eq_false_iff]
      exact fun owes => someone ⟨j, p, phase, had, name, owes⟩
  · rw [retries_of_arrival new, tally.unused x.id (sound.home_of_arrival new)]
    rfl
  · obtain ⟨j, q, time, purpose, _, at_, rfl⟩ := recounts_eq_some again
    have had : s.hand? j = some (q, .recording time) := by
      rw [hand?, view_of_stage? at_]
      rfl
    exact tally.inHand j q _ had rfl

/-- Each move keeps the tally. -/
theorem Tally.step (tally : s.Tally home due) (sound : s.Sound home) (more : home.Extends home')
    (m : Move) : (s.step m).Tally home' (s.dueAfter m due) where
  queued x held nobody := tally.stored sound held nobody
  inHand j p phase hand live := by
    cases had : s.hand? j with
    | some before => exact tally.handled sound had hand live
    | none =>
      rcases picks_step sound.order.tidy had hand with rfl | ⟨rfl, held, holds⟩
      · cases live
      · have alone {k : Nat} {q : Pending} {phase : Phase} (other : s.hand? k = some (q, phase))
            (same : q.id = p.id) (live : phase.isLive = true) : False := by
          obtain rfl := sound.eq_of_holds held holds other same (Phase.onLane_of_isLive live)
          rw [had] at other
          cases other
        have kept : s.fails m ≠ some p.id := fun failed => by
          obtain ⟨k, q, a, other, name, _⟩ := fails_eq_some failed
          exact alone other name rfl
        rw [dueAfter_of_ne kept]
        refine tally.queued p held fun k q phase other name => ?_
        rw [Bool.eq_false_iff]
        exact fun owes => alone other name (Phase.isLive_of_owes owes)
  unused i free := by
    have before : home i = none := by
      cases known : home i with
      | none => rfl
      | some e =>
        rw [more i e known] at free
        cases free
    rw [dueAfter_of_ne (sound.not_fails_of_unused before), tally.unused i before]

/-! ## At most so many attempts -/

/-- A delivery that may still be sent was tried less often than `max` times. -/
structure WithinRetries (max : Word32) (id : String) (s : Service) : Prop where
  queued : ∀ x, s.queue.Holds x → x.id = id → x.retries.val < max.val ∨
    ∃ j p phase, s.hand? j = some (p, phase) ∧ p.id = id ∧ phase.spends max p = true
  inHand : ∀ j p phase, s.hand? j = some (p, phase) → p.id = id → phase.isLive = true →
    p.retries.val < max.val ∨ phase.spends max p = true

/-- Who gives up a delivery that was tried too often takes it from the queue. -/
theorem spends_step {q : Pending} (had : s.hand? j = some (q, phase))
    (spends : phase.spends s.config.maxRetryCount q = true) (m : Move) :
    (∃ next, (s.step m).hand? j = some (q, next) ∧
      next.spends s.config.maxRetryCount q = true) ∨
      (s.step m).queue = (s.queue.remove q).1 := by
  have handles := hand_step had m
  generalize after : (s.step m).hand? j = now at handles
  cases handles with
  | stays => exact .inl ⟨phase, rfl, spends⟩
  | answers | ends | records => cases spends
  | @decides _ verdict move decided =>
    cases phase with
    | recorded =>
      have ceiling : s.config.maxRetryCount.val ≤ q.retries.val := by
        simpa [Phase.spends] using spends
      rw [Phase.verdict?, if_pos ceiling, Option.some.injEq] at decided
      subst decided
      exact .inl ⟨_, rfl, rfl⟩
    | removing ending => cases decided
    | posted | answered a | recording time | removed ending => cases spends
  | removes ending move queue => exact .inr queue

theorem step_config (s : Service) (m : Move) : (s.step m).config = s.config := by
  obtain ⟨added, o, _, became⟩ := step_moved s m
  exact became.config

theorem run_config (s : Service) (ms : List Move) : (s.run ms).config = s.config := by
  induction ms generalizing s with
  | nil => rfl
  | cons m ms ih => exact (ih (s.step m)).trans (step_config s m)

theorem lt_or_spends (max : Word32) (p : Pending) :
    p.retries.val < max.val ∨ Phase.recorded.spends max p = true := by
  rw [Phase.spends, decide_eq_true_eq]
  exact lt_or_ge _ _

theorem WithinRetries.step (within : s.WithinRetries s.config.maxRetryCount id)
    (sound : s.Sound home) (some_ : 0 < s.config.maxRetryCount.val) (m : Move) :
    (s.step m).WithinRetries (s.step m).config.maxRetryCount id := by
  rw [step_config]
  refine ⟨?_, ?_⟩
  · rintro x held rfl
    rcases holds_step held with before | new | again
    · refine (within.queued x before rfl).imp_right ?_
      rintro ⟨j, q, phase, had, name, spends⟩
      rcases spends_step had spends m with ⟨next, hand, still⟩ | queue
      · exact ⟨j, q, next, hand, name, still⟩
      · rw [queue] at held
        have there := sound.traced.queue x before
        rw [← name, sound.home_of_hand? had, Option.some.injEq] at there
        exact absurd ⟨there.symm, name.symm⟩ (Queue.holds_remove.mp held).2
    · rw [retries_of_arrival new]
      exact .inl some_
    · obtain ⟨j, q, time, purpose, rfl, at_, rfl⟩ := recounts_eq_some again
      have hand : (s.step (.work j)).hand? j = some (q.failed time, .recorded) := by
        rw [hand?, work_view at_, Function.update_self]
        rfl
      exact (lt_or_spends _ _).imp_right fun spends => ⟨j, _, _, hand, rfl, spends⟩
  · rintro j p phase hand rfl live
    cases had : s.hand? j with
    | none =>
      rcases picks_step sound.order.tidy had hand with rfl | ⟨rfl, held, holds⟩
      · cases live
      · refine .inl ((within.queued p held rfl).resolve_right ?_)
        rintro ⟨k, q, phase, other, name, spends⟩
        obtain rfl := sound.eq_of_holds held holds other name (Phase.onLane_of_spends spends)
        rw [had] at other
        cases other
    | some before =>
      obtain ⟨q, before⟩ := before
      have handles := hand_step had m
      generalize after : (s.step m).hand? j = now at handles
      rw [hand] at after
      cases handles with
      | stays =>
        cases after
        exact within.inHand j p phase had rfl live
      | answers reply =>
        cases after
        have kept := within.inHand j p .posted had rfl rfl
        exact .inl (kept.resolve_right fun spends => by cases spends)
      | @decides _ verdict move decided =>
        cases verdict with
        | accept | refuse reason =>
          cases after
          cases live
        | hold => cases after
        | count =>
          cases after
          have owes := Phase.owes_of_count decided
          have kept := within.inHand j p before had rfl (Phase.isLive_of_owes owes)
          refine .inl (kept.resolve_right ?_)
          rw [Phase.not_spends_of_owes owes]
          exact Bool.false_ne_true
      | records time move queue =>
        cases after
        exact lt_or_spends _ _
      | removes =>
        cases after
        cases live
      | ends ending move past =>
        rw [past p phase after.symm] at live
        cases live

theorem dueAfter_failures (due : String → Nat) (m : Move) (ms : List Move) (id : String) :
    s.dueAfter m due id + ((s.step m).failures ms).count id =
      due id + (s.failures (m :: ms)).count id := by
  rw [dueAfter, failures, List.count_append, Nat.add_assoc]

/-- A run keeps the tally. -/
theorem Tally.run (tally : s.Tally home due) (sound : s.Sound home) (ms : List Move) :
    ∃ home', home.Extends home' ∧ (s.run ms).Sound home' ∧
      (s.run ms).Tally home' fun id => due id + (s.failures ms).count id := by
  induction ms generalizing s home due with
  | nil => exact ⟨home, .refl home, sound, tally⟩
  | cons m ms ih =>
    obtain ⟨home', more, next⟩ := sound.step m
    obtain ⟨home'', more', last, counted⟩ := ih (tally.step sound more m) next
    simp only [dueAfter_failures] at counted
    exact ⟨home'', more.trans more', last, counted⟩

theorem WithinRetries.run (within : s.WithinRetries s.config.maxRetryCount id)
    (sound : s.Sound home) (some_ : 0 < s.config.maxRetryCount.val) (ms : List Move) :
    (s.run ms).WithinRetries (s.run ms).config.maxRetryCount id := by
  induction ms generalizing s home with
  | nil => exact within
  | cons m ms ih =>
    obtain ⟨home', _, next⟩ := sound.step m
    exact ih (within.step sound some_ m) next (by rwa [step_config])

/-- How often the delivery with an id was tried before. -/
def triesBefore (s : Service) (id : String) : Nat :=
  match s.queue.held.find? fun p => p.id == id with
  | some p => p.retries.toNat
  | none => 0

theorem triesBefore_of_missing (missing : ∀ x, s.queue.Holds x → x.id ≠ id)
    (tidy : s.queue.Tidy) : s.triesBefore id = 0 := by
  have none_ : s.queue.held.find? (fun p => p.id == id) = none := by
    rw [List.find?_eq_none]
    intro x member
    simpa using missing x (tidy.mem_held.mp member)
  rw [triesBefore, none_]

theorem triesBefore_of_held (sound : s.Sound home) {x : Pending} (held : s.queue.Holds x) :
    (s.triesBefore x.id : Int) = x.retries.val := by
  have tidy := sound.order.tidy
  rw [triesBefore]
  split
  case h_1 y found =>
    have name : y.id = x.id := by simpa using List.find?_some found
    have there := tidy.mem_held.mp (List.mem_of_find?_eq_some found)
    have homes := sound.traced.queue y there
    rw [name, sound.traced.queue x held, Option.some.injEq] at homes
    obtain rfl := tidy.eq_of_id there held homes.symm name
    exact Int.toNat_of_nonneg y.retries.lo_le
  case h_2 missing =>
    have other := List.find?_eq_none.mp missing x (tidy.mem_held.mpr held)
    simp at other

theorem Initial.no_hand (initial : s.Initial) (j : Nat) : s.hand? j = none := by
  rw [Service.hand?, initial.idle]
  rfl

theorem Initial.tally (initial : s.Initial) (sound : s.Sound home) :
    s.Tally home s.triesBefore where
  queued x held _ := by
    ext
    rw [triesBefore_of_held sound held, Ranged.val_clamp_of_mem x.retries.lo_le x.retries.le_hi]
  inHand j p phase hand := by
    rw [initial.no_hand] at hand
    cases hand
  unused id free := by
    refine triesBefore_of_missing (fun x held same => ?_) sound.order.tidy
    rw [← same, sound.traced.queue x held] at free
    cases free

theorem Initial.withinRetries (initial : s.Initial) (missing : ∀ x, s.queue.Holds x → x.id ≠ id) :
    s.WithinRetries s.config.maxRetryCount id where
  queued x held same := absurd same (missing x held)
  inHand j p phase hand := by
    rw [initial.no_hand] at hand
    cases hand

/-- Where the lane is free the queue shows how often each delivery was tried. -/
theorem Tally.shown (tally : s.Tally home due) (sound : s.Sound home) {e : Endpoint}
    (found : s.queue.get? e id = some p) (free : (s.lanes.get e).holders = []) :
    p.retries = .clamp (due id) Word32.bounds := by
  obtain ⟨rfl, rfl, held⟩ := sound.order.tidy.get?_eq_some_iff.mp found
  refine tally.queued p held fun k q phase hand name => ?_
  rw [Bool.eq_false_iff]
  intro owes
  have there := sound.home_of_hand? hand
  rw [name, sound.traced.queue p held, Option.some.injEq] at there
  have holds := holds_of_hand? hand (Phase.onLane_of_isLive (Phase.isLive_of_owes owes))
  rw [← there] at holds
  have holder := (sound.order.lanes.holds_iff p.endpoint k).mpr holds
  have nobody : (s.outline.lanes.get p.endpoint).holders = [] := free
  rw [nobody] at holder
  cases holder

/-- A delivery is sent only if it was not tried too often. -/
theorem WithinRetries.of_post (within : s.WithinRetries s.config.maxRetryCount id)
    (tally : s.Tally home due) (sound : s.Sound home) {e : Endpoint} {clock : Millis}
    {payload : Bytes} (posted : .post e id clock payload ∈ s.news m) :
    due id < s.config.maxRetryCount.val := by
  obtain ⟨task, p, purpose, current, rfl, view, rfl, found, _, same, _⟩ := post_step posted
  obtain ⟨endpoint, _, held⟩ := sound.order.tidy.get?_eq_some_iff.mp found
  obtain rfl : id = current.id := by
    injection same
  have holds : (s.view task).position = .holds current.endpoint := by
    rw [view, endpoint]
    rfl
  have idle : s.hand? task = none := by
    rw [hand?, view]
    rfl
  have alone {k : Nat} {q : Pending} {phase : Phase} (other : s.hand? k = some (q, phase))
      (name : q.id = current.id) (onLane : phase.onLane = true) : False := by
    obtain rfl := sound.eq_of_holds held holds other name onLane
    rw [idle] at other
    cases other
  have few : current.retries.val < s.config.maxRetryCount.val := by
    refine (within.queued current held rfl).resolve_right ?_
    rintro ⟨k, q, phase, other, name, spends⟩
    exact alone other name (Phase.onLane_of_spends spends)
  have counted := tally.queued current held fun k q phase other name => by
    rw [Bool.eq_false_iff]
    exact fun owes => alone other name (Phase.onLane_of_isLive (Phase.isLive_of_owes owes))
  rw [counted, Ranged.val_clamp] at few
  have top := s.config.maxRetryCount.le_hi
  omega

/-- An attempt can fail only as often as is allowed. -/
theorem WithinRetries.of_fails (within : s.WithinRetries s.config.maxRetryCount id)
    (tally : s.Tally home due) (failed : s.fails m = some id) :
    due id < s.config.maxRetryCount.val := by
  obtain ⟨k, q, a, hand, rfl, _⟩ := fails_eq_some failed
  have few := (within.inHand k q .posted hand rfl rfl).resolve_right nofun
  have counted : q.retries = _ := tally.inHand k q .posted hand rfl
  rw [counted, Ranged.val_clamp] at few
  have top := s.config.maxRetryCount.le_hi
  omega

/-- A delivery of this process is tried without success as often as is allowed at most. -/
theorem WithinRetries.failures_le (within : s.WithinRetries s.config.maxRetryCount id)
    (tally : s.Tally home due) (sound : s.Sound home) (some_ : 0 < s.config.maxRetryCount.val)
    (few : due id ≤ s.config.maxRetryCount.val) (ms : List Move) :
    due id + ((s.failures ms).count id : Int) ≤ s.config.maxRetryCount.val := by
  induction ms generalizing s home due with
  | nil => simpa [failures] using few
  | cons m ms ih =>
    obtain ⟨home', more, next⟩ := sound.step m
    have small : s.dueAfter m due id ≤ s.config.maxRetryCount.val := by
      by_cases failed : s.fails m = some id
      · have less := within.of_fails tally failed
        rw [dueAfter_of_fails failed]
        omega
      · rwa [dueAfter_of_ne failed]
    have rest := ih (within.step sound some_ m) (tally.step sound more m) next
      (by rwa [step_config]) (by rwa [step_config])
    have total := dueAfter_failures (s := s) due m ms id
    rw [step_config] at rest
    omega

/-- No attempt is lost or counted twice.

However sends, flushes and replays come between each other, and whatever the collector answers:
where the lane of an endpoint is free, the count of a delivery in its queue is the one that the
delivery came with, which is zero if this process has made it, and one more for each time that it
was sent in vain, stopping at the largest number. It was sent in vain if no answer came, or one
that neither accepts nor refuses it.

So if retries are allowed at all, a delivery that this process has made is sent in vain as often as
is allowed at most, and it is never sent after that. -/
theorem retries_counted (initial : s.Initial) (ids : s.DistinctIds) (ms : List Move) :
    let t := s.run ms
    let tries (id : String) : Int := (s.failures ms).count id
    (∀ e id p, t.queue.get? e id = some p → (t.lanes.get e).holders = [] →
      (∀ f p₀, s.queue.get? f id = some p₀ →
        p.retries = .clamp (p₀.retries.val + tries id) Word32.bounds) ∧
      ((∀ f, s.queue.get? f id = none) → p.retries = .clamp (tries id) Word32.bounds)) ∧
    (∀ m, ∀ p ∈ t.arrivals m, p.retries = 0) ∧
    ∀ id, 1 ≤ s.config.maxRetryCount.val → (∀ f, s.queue.get? f id = none) →
      tries id ≤ s.config.maxRetryCount.val ∧
      ∀ m e clock payload, .post e id clock payload ∈ t.news m →
        tries id < s.config.maxRetryCount.val := by
  intro t tries
  obtain ⟨home, sound⟩ := initial.sound ids
  have tidy := sound.order.tidy
  have missing {id : String} (absent : ∀ f, s.queue.get? f id = none) (x : Pending)
      (held : s.queue.Holds x) : x.id ≠ id := by
    intro same
    have there : s.queue.get? x.endpoint id = some x :=
      tidy.get?_eq_some_iff.mpr ⟨rfl, same, held⟩
    rw [absent] at there
    cases there
  have tally := initial.tally sound
  obtain ⟨home', more, last, counted⟩ := tally.run sound ms
  refine ⟨?_, fun m p => retries_of_arrival, ?_⟩
  · intro e id p found free
    have shown := counted.shown last found free
    refine ⟨fun f p₀ before => ?_, fun absent => ?_⟩
    · obtain ⟨_, rfl, held⟩ := tidy.get?_eq_some_iff.mp before
      rw [shown, ← triesBefore_of_held sound held]
      rfl
    · rw [shown, triesBefore_of_missing (missing absent) tidy, Nat.zero_add]
  · intro id some_ absent
    have none_ := triesBefore_of_missing (missing absent) tidy
    have within := initial.withinRetries (missing absent)
    have total := within.failures_le tally sound some_ (by rw [none_]; omega) ms
    refine ⟨by rw [none_] at total; simpa [tries] using total, ?_⟩
    intro m e clock payload posted
    have few := (within.run sound some_ ms).of_post counted last posted
    simpa [tries, none_, run_config] using few

/-- A first delivery is sent in vain. -/
def vainly : List Move :=
  [.call (.send .logs [7]), .advance 0, .work 0, .advance 0, .advance 0,
    .answer 0 (.ok (.ofStatus 500)), .advance 0, .work 0, .advance 0]

/-- It waits in the queue with a count of one, and the lane is free. -/
theorem retries_counted_of_vainly :
    let s := start .default countedIds 0 5 ⟨.absent, 1000⟩ ⟨.absent, 1000⟩
    let t := s.run vainly
    (s.failures vainly).count "d" = 1 ∧ (t.lanes.get .logs).holders = [] ∧
      (∃ p, t.queue.get? .logs "d" = some p ∧ p.retries = .clamp 1 Word32.bounds) ∧
      ∀ ms, ((s.failures ms).count "d" : Int) ≤ 10 := by
  intro s t
  have initial : s.Initial := .start _ _ _ _ _ _
  have ids : s.DistinctIds := distinctIds_start countedIds_injective _ _ _ _ _
  have once : (s.failures vainly).count "d" = 1 := by decide +kernel
  have free : (t.lanes.get .logs).holders = [] := by decide +kernel
  have there : (t.queue.get? .logs "d").isSome = true := by decide +kernel
  have absent : ∀ f, s.queue.get? f "d" = none := fun f => by cases f <;> rfl
  obtain ⟨p, found⟩ := Option.isSome_iff_exists.mp there
  have shown : p.retries = .clamp ((s.failures vainly).count "d" : Int) Word32.bounds :=
    ((retries_counted initial ids vainly).1 .logs "d" p found free).2 absent
  rw [once] at shown
  refine ⟨once, free, ⟨p, found, shown⟩, fun ms => ?_⟩
  exact ((retries_counted initial ids ms).2.2 "d" (by decide) absent).1

end Service

end Outbox
