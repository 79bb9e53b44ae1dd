import Outbox.Proofs.Endings

/-! # Deliveries that no replay gives up

Only a replay that gives up a delivery on its own has it in hand without the lane. A delivery that
never meets this fate ends once at most, whatever else happens: at any time one task at most has it
in hand, and once it has ended it is out of the queue for good.
-/

namespace Outbox

section

variable {s : Service} {config : Config} {added : List Happening} {o : Outline} {m : Move} {j : Nat}
  {p : Pending} {phase : Phase}

/-- A task that was not busy with a delivery, and is on the lane, has just found it in the queue. -/
theorem Moved.takes (tidy : s.queue.Tidy) (moved : Moved s m added o)
    (hand : (o.view j).hand? = some (p, phase)) (onLane : phase.onLane = true) :
    (s.view j).Busy s.config p.id ∨ phase.verdict? s.config p = some .hold ∨
      (s.queue.Holds p ∧ added.countP (Happening.isEndOf p.id) = 0) := by
  have onward {ps : List Pending} {o₀ : Outline} {later : List Happening}
      (next : Onward j ps o₀ later o) : False := by
    obtain rfl := next.phase hand
    cases onLane
  have same (unmoved : (o.view j).hand? = (s.view j).hand?) :
      (s.view j).Busy s.config p.id ∨ phase.verdict? s.config p = some .hold ∨
        (s.queue.Holds p ∧ added.countP (Happening.isEndOf p.id) = 0) := by
    by_cases decided : phase.verdict? s.config p = some .hold
    · exact .inr (.inl decided)
    · exact .inl ⟨p, phase, unmoved ▸ hand, rfl, decided⟩
  have was {q : Pending} {before : Phase} {rest : List Pending}
      (view : s.view j = .has q before rest) (name : q.id = p.id)
      (heeds : before.verdict? s.config q ≠ some .hold) : (s.view j).Busy s.config p.id :=
    ⟨q, before, by rw [view]; rfl, name, heeds⟩
  by_cases mover : m.task? = some j
  case neg => exact same (moved.hand?_of_ne mover)
  cases moved with
  | quiet => exact same rfl
  | arrives => cases mover
  | acts act =>
    cases mover
    cases act with
    | idle => exact same rfl
    | goes known free away next | yields view next | ends view next => exact (onward next).elim
    | posts view found due =>
      rw [Outline.put_view_self] at hand
      cases hand
      exact .inr (.inr ⟨(tidy.get?_eq_some_iff.mp found).2.2, rfl⟩)
    | holds view verdict =>
      rw [Outline.put_view_self] at hand
      cases hand
    | accepts view verdict | refuses view verdict | counts view verdict =>
      rw [Outline.put_view_self] at hand
      cases hand
      exact .inl (was view rfl (by simp [verdict]))
  | works deed =>
    cases mover
    cases deed with
    | idle => exact same rfl
    | fills made one free away =>
      rw [Outline.put_view_self] at hand
      cases hand
    | removes view | records view =>
      rw [Outline.put_view_self] at hand
      cases hand
      exact .inl (was view rfl nofun)
  | answers reply view =>
    cases mover
    rw [Outline.put_view_self] at hand
    cases hand
    exact .inl (was view rfl nofun)

/-- A task took a delivery from the queue just now, or before. -/
theorem Moved.removed_origin {ending : Ending} (moved : Moved s m added o)
    (hand : (o.view j).hand? = some (p, .removed ending)) :
    (s.view j).hand? = some (p, .removed ending) ∨
      ((s.view j).hand? = some (p, .removing ending) ∧ o.queue = (s.queue.remove p).1) := by
  by_cases mover : m.task? = some j
  case neg => exact .inl ((moved.hand?_of_ne mover).symm.trans hand)
  have onward {ps : List Pending} {o₀ : Outline} {later : List Happening}
      (next : Onward j ps o₀ later o) : False := by
    cases next.phase hand
  cases moved with
  | quiet => exact .inl hand
  | arrives => cases mover
  | acts act =>
    cases mover
    cases act with
    | idle => exact .inl hand
    | goes known free away next | yields view next | ends view next => exact (onward next).elim
    | posts view | holds view | accepts view | refuses view | counts view =>
      rw [Outline.put_view_self] at hand
      cases hand
  | works deed =>
    cases mover
    cases deed with
    | idle => exact .inl hand
    | fills | records =>
      rw [Outline.put_view_self] at hand
      cases hand
    | removes view =>
      rw [Outline.put_view_self] at hand
      cases hand
      exact .inr ⟨by rw [view]; rfl, rfl⟩
  | answers =>
    cases mover
    rw [Outline.put_view_self] at hand
    cases hand

end

namespace Service

variable {s : Service} {home home' : Homes} {id : String} {m : Move}

/-- Whoever has the delivery in hand has the lane. -/
def OnLane (s : Service) (id : String) : Prop :=
  ∀ j p phase, s.hand? j = some (p, phase) → p.id = id → phase.onLane = true

/-- The delivery has ended, or a task took it from the queue and tells that next. -/
def Ended (s : Service) (id : String) : Prop :=
  0 < s.endings id ∨ ∃ j p ending, s.hand? j = some (p, .removed ending) ∧ p.id = id

/-- What has ended is out of the queue. -/
def Cleared (s : Service) (id : String) : Prop :=
  s.Ended id → ∀ p, s.queue.Holds p → p.id ≠ id

theorem Ended.known (sound : s.Sound home) (orderly : s.Orderly home id) (ended : s.Ended id) :
    ∃ e, home id = some e := by
  rcases ended with told | ⟨j, p, ending, hand, rfl⟩
  · exact orderly.known told
  · exact ⟨p.endpoint, sound.home_of_hand? hand⟩

/-- Nobody stores again what has ended, if one task at most is busy with it. -/
theorem Ended.not_recording (exclusive : s.Exclusive id) (ended : s.Ended id) {k : Nat}
    {p : Pending} {time : Millis} (recording : s.hand? k = some (p, .recording time)) :
    p.id ≠ id := by
  intro name
  have busy : s.Busy k id := ⟨p, _, recording, name, nofun⟩
  rcases ended with told | ⟨j, q, ending, hand, name'⟩
  · exact exclusive.afterEnd told k busy
  · have other : s.Busy j id := ⟨q, _, hand, name', nofun⟩
    obtain rfl := exclusive.one j k other busy
    rw [recording] at hand
    cases hand

/-- What has ended stays out of the queue, if one task at most is busy with it. -/
theorem Cleared.step (sound : s.Sound home) (orderly : s.Orderly home id)
    (exclusive : s.Exclusive id) (cleared : s.Cleared id) : (s.step m).Cleared id := by
  obtain ⟨added, o, moved, became, fate⟩ := sound.step_fate m id
  intro ended x held name
  have queue : (s.step m).queue = o.queue := congrArg Outline.queue became.outline
  rw [queue] at held
  have already (before : s.Ended id) : False := by
    rcases moved.held sound.traced held with there | fresh | ⟨k, p, time, rest, _, view, rfl⟩
    · exact cleared before x there name
    · obtain ⟨e, known⟩ := before.known sound orderly
      rw [name, known] at fresh
      cases fresh
    · have recording : s.hand? k = some (p, .recording time) := by
        rw [hand?, view]
        rfl
      exact before.not_recording exclusive recording name
  rcases ended with told | ⟨j, p, ending, hand, same⟩
  · rw [became.endings] at told
    cases fate with
    | keeps noEnd | givesUp _ _ noEnd =>
      rw [noEnd, Nat.zero_add] at told
      exact already (.inl told)
    | ends hand same => exact already (.inr ⟨_, _, _, hand, same⟩)
  · rw [hand?, became.view] at hand
    rcases moved.removed_origin hand with before | ⟨removing, gone⟩
    · exact already (.inr ⟨j, p, ending, before, same⟩)
    · rw [gone] at held
      obtain ⟨there, other⟩ := Queue.holds_remove.mp held
      have home_ := sound.traced.queue x there
      rw [name, ← same, sound.home_of_hand? removing, Option.some.injEq] at home_
      exact other ⟨home_.symm, name.trans same.symm⟩

/-- On the lane one task at most has the delivery in hand, and none does once it has ended. -/
theorem OnLane.exclusive (sound : s.Sound home) (next : (s.step m).Sound home')
    (before : s.Exclusive id) (cleared : s.Cleared id) (onLane : (s.step m).OnLane id) :
    (s.step m).Exclusive id := by
  refine ⟨?_, ?_⟩
  · rintro i j ⟨p, phase, hand, name, _⟩ ⟨q, phase', hand', name', _⟩
    exact next.eq_of_hand? hand hand' (name.trans name'.symm) (onLane i p phase hand name)
      (onLane j q phase' hand' name')
  · intro ended j busy
    by_cases was : s.Busy j id
    · exact before.idle_of_ended sound ended was busy
    · obtain ⟨p, phase, hand, rfl, heeds⟩ := busy
      have onLane' := onLane j p phase hand rfl
      obtain ⟨added, o, moved, became⟩ := step_moved s m
      rw [became.view] at hand
      rw [became.config] at heeds
      rcases moved.takes sound.order.tidy hand onLane' with busy | decided | ⟨held, noEnd⟩
      · exact was busy
      · exact heeds decided
      · rw [became.endings, noEnd, Nat.zero_add] at ended
        exact cleared (.inl ended) p held rfl

theorem OnLane.run (sound : s.Sound home) (orderly : s.Orderly home id)
    (exclusive : s.Exclusive id) (cleared : s.Cleared id) (ms : List Move)
    (onLane : ∀ done, done <+: ms → (s.run done).OnLane id) :
    ∀ done, done <+: ms → (s.run done).Exclusive id := by
  induction ms generalizing s home with
  | nil =>
    intro done first
    rw [List.prefix_nil.mp first]
    exact exclusive
  | cons m ms ih =>
    intro done first
    obtain ⟨home', more, next⟩ := sound.step m
    have onLane' : (s.step m).OnLane id :=
      onLane [m] ((List.prefix_cons_inj m).mpr List.nil_prefix)
    have exclusive' := onLane'.exclusive sound next exclusive cleared
    rcases List.prefix_cons_iff.mp first with rfl | ⟨done, rfl, later⟩
    · exact exclusive
    · refine ih next (orderly.step sound more exclusive exclusive') exclusive'
        (cleared.step sound orderly exclusive) (fun part within => ?_) done later
      exact onLane (m :: part) ((List.prefix_cons_inj m).mpr within)

/-- A delivery that no replay gives up on its own ends once at most. -/
theorem ends_once_on_lane (initial : s.Initial) (ids : s.DistinctIds) (id : String)
    (ms : List Move) (onLane : ∀ done, done <+: ms → (s.run done).OnLane id) :
    s.EndsOnce ms id := by
  obtain ⟨home, sound⟩ := initial.sound ids
  have orderly := initial.orderly home id
  have free (j : Nat) (p : Pending) (phase : Phase) : s.hand? j ≠ some (p, phase) := by
    intro hand
    rw [hand?, initial.idle] at hand
    cases hand
  have exclusive : s.Exclusive id := by
    refine ⟨?_, ?_⟩
    · rintro i j ⟨p, phase, hand, _⟩ _
      exact absurd hand (free i p phase)
    · rintro _ j ⟨p, phase, hand, _⟩
      exact free j p phase hand
  have cleared : s.Cleared id := by
    rintro (told | ⟨j, p, ending, hand, _⟩)
    · exact absurd (initial.silent id).1 (Nat.ne_of_gt told)
    · exact absurd hand (free j p _)
  exact orderly.endsOnce sound (OnLane.run sound orderly exclusive cleared ms onLane)

end Service

end Outbox
