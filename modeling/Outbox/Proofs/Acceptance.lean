import Outbox.Proofs.Identity
import Outbox.Proofs.SendGate

/-! # Accepted once

A delivery that the collector accepted stays with the task that sent it, which has the lane of the
endpoint, until it is out of the queue. Nobody else can send it meanwhile, and nobody has it in
hand afterwards who could send it or store it again.
-/

namespace Outbox

namespace Phase

/-- The delivery was accepted and is not out of the queue yet. -/
def isAccepted : Phase → Bool
  | answered a => a.isSuccess
  | removing .delivered => true
  | _ => false

/-- The delivery may stay in the queue. -/
def isLive : Phase → Bool
  | posted | answered _ | recording _ | recorded => true
  | removing _ | removed _ => false

theorem onLane_of_isAccepted {phase : Phase} (accepted : phase.isAccepted = true) :
    phase.onLane = true := by
  cases phase with
  | removing ending | removed ending =>
    cases ending with
    | delivered => rfl
    | dropped reason onLane => cases accepted
  | _ => rfl

theorem onLane_of_isLive {phase : Phase} (live : phase.isLive = true) : phase.onLane = true := by
  cases phase with
  | removing ending | removed ending => cases live
  | _ => rfl

end Phase

section

variable {s : Service} {o : Outline} {added : List Happening} {m : Move} {j : Nat} {p : Pending}
  {phase : Phase}

/-- A move leaves what other tasks have in hand alone. -/
theorem Moved.hand?_of_ne (moved : Moved s m added o) (other : m.task? ≠ some j) :
    (o.view j).hand? = (s.view j).hand? := by
  cases moved with
  | quiet => rfl
  | @acts id _ _ act =>
    have differ : j ≠ id := fun same => other (congrArg some same.symm)
    exact (act.near differ).hand?
  | @works id _ deed =>
    have differ : j ≠ id := fun same => other (congrArg some same.symm)
    cases deed with
    | idle => rfl
    | fills made one free away =>
      rw [Outline.put_view_of_ne _ _ differ, made.same.2]
      rfl
    | removes view | records view =>
      rw [Outline.put_view_of_ne _ _ differ]
      rfl
  | @answers id p rest reply view =>
    have differ : j ≠ id := fun same => other (congrArg some same.symm)
    rw [Outline.put_view_of_ne _ _ differ]
    rfl
  | @arrives p o id e type fills fresh =>
    have same := fills.same.2
    by_cases self : j = id
    · have idle : s.view id = .idle [] := by
        rw [← fresh, same]
        rfl
      rw [self, Outline.put_view_self, idle]
      rfl
    · rw [Outline.put_view_of_ne _ _ self, same]
      rfl

/-- A delivery that may stay in the queue is in the hand of its task since it was found there. -/
theorem Moved.live_origin (tidy : s.queue.Tidy) (moved : Moved s m added o)
    (hand : (o.view j).hand? = some (p, phase)) (live : phase.isLive = true) :
    (∃ q phase', (s.view j).hand? = some (q, phase') ∧ q.id = p.id ∧ phase'.isLive = true) ∨
      ∃ q, s.queue.Holds q ∧ q.id = p.id := by
  by_cases mover : m.task? = some j
  case neg => exact .inl ⟨p, phase, (moved.hand?_of_ne mover) ▸ hand, rfl, live⟩
  have onward {ps : List Pending} {o o' : Outline} {later : List Happening}
      (next : Onward j ps o later o') : (o'.view j).hand? ≠ some (p, phase) := by
    intro hand
    obtain rfl := next.phase hand
    cases live
  cases moved with
  | quiet => exact .inl ⟨p, phase, hand, rfl, live⟩
  | @acts id _ _ act =>
    cases mover
    cases act with
    | idle => exact .inl ⟨p, phase, hand, rfl, live⟩
    | goes known free away next => exact absurd hand (onward next)
    | yields view next => exact absurd hand (onward next)
    | ends view next => exact absurd hand (onward next)
    | posts view found free =>
      rw [Outline.put_view_self] at hand
      cases hand
      exact .inr ⟨p, (tidy.get?_eq_some_iff.mp found).2.2, rfl⟩
    | accepts view verdict | refuses view verdict =>
      rw [Outline.put_view_self] at hand
      cases hand
      cases live
    | holds view verdict =>
      rw [Outline.put_view_self] at hand
      cases hand
    | @counts q phase' rest view verdict =>
      rw [Outline.put_view_self] at hand
      cases hand
      refine .inl ⟨p, phase', by rw [view]; rfl, rfl, ?_⟩
      cases phase' with
      | answered a | recorded => rfl
      | posted | recording time | removing ending | removed ending => cases verdict
  | @works id _ deed =>
    cases mover
    cases deed with
    | idle => exact .inl ⟨p, phase, hand, rfl, live⟩
    | fills made one free away =>
      rw [Outline.put_view_self] at hand
      cases hand
    | removes view =>
      rw [Outline.put_view_self] at hand
      cases hand
      cases live
    | @records q time rest view =>
      rw [Outline.put_view_self] at hand
      cases hand
      exact .inl ⟨q, .recording time, by rw [view]; rfl, rfl, rfl⟩
  | @answers id q rest reply view =>
    cases mover
    rw [Outline.put_view_self] at hand
    cases hand
    exact .inl ⟨p, .posted, by rw [view]; rfl, rfl, rfl⟩
  | arrives => cases mover

/-- A task that has an accepted delivery does nothing else than take it from the queue. -/
theorem Moved.accepted_next (moved : Moved s m added o)
    (hand : (s.view j).hand? = some (p, phase)) (accepted : phase.isAccepted = true) :
    (∃ phase', (o.view j).hand? = some (p, phase') ∧ phase'.isAccepted = true) ∨
      (m.task? = some j ∧ o.queue = (s.queue.remove p).1 ∧
        (o.view j).hand? = some (p, .removed .delivered)) := by
  by_cases mover : m.task? = some j
  case neg => exact .inl ⟨phase, (moved.hand?_of_ne mover).trans hand, accepted⟩
  have free {h : Option (Pending × Phase)} (none_ : h = none) : h ≠ some (p, phase) := by
    simp [none_]
  cases moved with
  | quiet => exact .inl ⟨phase, hand, accepted⟩
  | @acts id _ _ act =>
    cases mover
    cases act with
    | idle => exact .inl ⟨phase, hand, accepted⟩
    | goes known none_ away next => exact absurd hand (free none_)
    | yields view next => exact absurd hand (free (by rw [view]; rfl))
    | posts view found open_ => exact absurd hand (free (by rw [view]; rfl))
    | accepts view verdict =>
      rw [view] at hand
      cases hand
      rw [Outline.put_view_self]
      exact .inl ⟨_, rfl, rfl⟩
    | holds view verdict | refuses view verdict | counts view verdict =>
      rw [view] at hand
      cases hand
      cases phase with
      | answered a =>
        cases a with
        | success body etag => cases verdict
        | _ => cases accepted
      | recorded => cases accepted
      | _ => cases verdict
    | ends view next =>
      rw [view] at hand
      cases hand
      cases accepted
  | @works id _ deed =>
    cases mover
    cases deed with
    | idle => exact .inl ⟨phase, hand, accepted⟩
    | fills made one none_ away => exact absurd hand (free none_)
    | @removes q ending rest view =>
      rw [view] at hand
      cases hand
      cases ending with
      | delivered =>
        rw [Outline.put_view_self]
        exact .inr ⟨rfl, rfl, rfl⟩
      | dropped reason onLane => cases accepted
    | records view =>
      rw [view] at hand
      cases hand
      cases accepted
  | answers reply view =>
    cases mover
    rw [view] at hand
    cases hand
    cases accepted
  | arrives => cases mover

end

namespace Service

variable {s : Service} {home : Homes} {i j : Nat} {id : String} {e : Endpoint} {m : Move}

/-- What a task has in hand. -/
def hand? (s : Service) (id : Nat) : Option (Pending × Phase) := (s.view id).hand?

theorem view_of_hand? {p : Pending} {phase : Phase} (hand : s.hand? i = some (p, phase)) :
    ∃ rest, s.view i = .has p phase rest := by
  unfold hand? view at hand
  unfold view
  split at hand
  case h_2 => cases hand
  case h_1 stage at_ =>
    cases stage with
    | posting q purpose | answered q a purpose =>
      cases hand
      exact ⟨_, rfl⟩
    | working w =>
      cases w with
      | remove q ending purpose | record q time purpose =>
        cases hand
        exact ⟨_, rfl⟩
      | _ => cases hand
    | worked done =>
      cases done with
      | removed q ending purpose | recorded q time purpose =>
        cases hand
        exact ⟨_, rfl⟩
      | _ => cases hand
    | _ => cases hand

/-- A task has the delivery, which was accepted, and takes it from the queue. -/
def Settling (s : Service) (id : String) : Prop :=
  ∃ i p phase, s.hand? i = some (p, phase) ∧ p.id = id ∧ phase.isAccepted = true

/-- The delivery is out of the queue, and no task could put it back. -/
def Settled (s : Service) (id : String) : Prop :=
  (∀ p, s.queue.Holds p → p.id ≠ id) ∧
    ∀ i p phase, s.hand? i = some (p, phase) → p.id = id → phase.isLive = false

theorem Sound.home_of_hand? (sound : s.Sound home) {p : Pending} {phase : Phase}
    (hand : s.hand? i = some (p, phase)) : home p.id = some p.endpoint := by
  obtain ⟨rest, view⟩ := view_of_hand? hand
  exact (sound.traced.of_has view).1 p List.mem_cons_self

theorem holds_of_hand? {p : Pending} {phase : Phase} (hand : s.hand? i = some (p, phase))
    (onLane : phase.onLane = true) : (s.view i).position = .holds p.endpoint := by
  obtain ⟨rest, view⟩ := view_of_hand? hand
  rw [view, View.position_has onLane]

/-- Nobody else has, on a lane, a delivery that a task has on a lane. -/
theorem Sound.eq_of_hand? (sound : s.Sound home) {p q : Pending} {phase phase' : Phase}
    (hand : s.hand? i = some (p, phase)) (hand' : s.hand? j = some (q, phase'))
    (same : p.id = q.id) (onLane : phase.onLane = true) (onLane' : phase'.onLane = true) :
    i = j := by
  have home_ := sound.home_of_hand? hand
  rw [same, sound.home_of_hand? hand', Option.some.injEq] at home_
  have holds := holds_of_hand? hand onLane
  rw [← home_] at holds
  exact sound.order.lanes.eq_of_holds holds (holds_of_hand? hand' onLane')

/-- Once accepted, a delivery is on its way out of the queue, and then out of it, for good. -/
theorem Sound.settles (sound : s.Sound home) (known : home id = some e)
    (settles : s.Settling id ∨ s.Settled id) (m : Move) :
    (s.step m).Settling id ∨ (s.step m).Settled id := by
  obtain ⟨added, o, moved, became⟩ := step_moved s m
  have outline := became.outline
  have queue : (s.step m).queue = o.queue := congrArg Outline.queue outline
  have hand_eq (k : Nat) : (s.step m).hand? k = (o.view k).hand? :=
    congrArg (fun o => (Outline.view o k).hand?) outline
  rcases settles with ⟨i, p, phase, hand, rfl, accepted⟩ | ⟨absent, idle⟩
  · rcases moved.accepted_next hand accepted with ⟨phase', hand', accepted'⟩ | ⟨mover, gone, hand'⟩
    · exact .inl ⟨i, p, phase', (hand_eq i).trans hand', rfl, accepted'⟩
    · refine .inr ⟨?_, ?_⟩
      · intro x held same
        rw [queue, gone] at held
        obtain ⟨before, other⟩ := Queue.holds_remove.mp held
        have home_ := sound.traced.queue x before
        rw [same, sound.home_of_hand? hand, Option.some.injEq] at home_
        exact other ⟨home_.symm, same⟩
      · intro k q phase' handk same
        rw [hand_eq] at handk
        rw [Bool.eq_false_iff]
        intro live
        by_cases self : k = i
        · subst self
          rw [hand'] at handk
          cases handk
          cases live
        · have other : m.task? ≠ some k := by
            rw [mover]
            exact fun equal => self (Option.some.inj equal).symm
          have before : s.hand? k = some (q, phase') := (moved.hand?_of_ne other).symm.trans handk
          exact self (sound.eq_of_hand? before hand same (Phase.onLane_of_isLive live)
            (Phase.onLane_of_isAccepted accepted))
  · refine .inr ⟨?_, ?_⟩
    · intro x held same
      rw [queue] at held
      rcases moved.held sound.traced held with before | fresh | ⟨k, p, time, rest, _, view, rfl⟩
      · exact absent x before same
      · rw [same, known] at fresh
        cases fresh
      · have live := idle k p (.recording time) (by rw [hand?, view]; rfl) same
        cases live
    · intro k q phase handk same
      rw [hand_eq] at handk
      rw [Bool.eq_false_iff]
      intro live
      rcases moved.live_origin sound.order.tidy handk live with
        ⟨q', phase', before, same', live'⟩ | ⟨q', held, same'⟩
      · rw [idle k q' phase' before (same'.trans same)] at live'
        cases live'
      · exact absent q' held (same'.trans same)

theorem Sound.not_posted (sound : s.Sound home) (settles : s.Settling id ∨ s.Settled id)
    (clock : Millis) (payload : Bytes) : .post e id clock payload ∉ s.news m := by
  intro posted
  obtain ⟨task, p, purpose, current, _, view, rfl, found, _, same, _⟩ := post_step posted
  obtain ⟨endpoint, _, held⟩ := sound.order.tidy.get?_eq_some_iff.mp found
  obtain rfl : id = current.id := by
    injection same
  rcases settles with ⟨i, q, phase, hand, name, accepted⟩ | ⟨absent, _⟩
  · have home_ := sound.traced.queue current held
    rw [← name, sound.home_of_hand? hand, Option.some.injEq, endpoint] at home_
    have holds := holds_of_hand? hand (Phase.onLane_of_isAccepted accepted)
    rw [home_] at holds
    have taken : (s.view task).position = .holds p.endpoint := by
      rw [view]
      rfl
    obtain rfl := sound.order.lanes.eq_of_holds holds taken
    rw [hand?, view] at hand
    cases hand
  · exact absent current held rfl

/-- A delivery that nobody is about to store again is not put into the queue. -/
theorem Sound.not_reinserted (sound : s.Sound home) (known : home id = some e)
    (nobody : ∀ k p time, s.hand? k = some (p, .recording time) → p.id ≠ id) {f : Endpoint}
    (absent : s.queue.get? f id = none) : (s.step m).queue.get? f id = none := by
  obtain ⟨added, o, moved, became⟩ := step_moved s m
  have queue : (s.step m).queue = o.queue := congrArg Outline.queue became.outline
  have tidy := (step_inOrder sound.order m).tidy
  apply Option.eq_none_iff_forall_ne_some.mpr
  intro x found
  obtain ⟨rfl, rfl, held⟩ := tidy.get?_eq_some_iff.mp found
  have held' : o.queue.Holds x := queue ▸ held
  rcases moved.held sound.traced held' with before | fresh | ⟨k, p, time, rest, _, view, rfl⟩
  · have there : s.queue.get? x.endpoint x.id = some x :=
      sound.order.tidy.get?_eq_some_iff.mpr ⟨rfl, rfl, before⟩
    rw [absent] at there
    cases there
  · rw [known] at fresh
    cases fresh
  · exact nobody k p time (by rw [hand?, view]; rfl) rfl

/-- Nobody is about to store again what is settled. -/
theorem Sound.not_recording (sound : s.Sound home) (settles : s.Settling id ∨ s.Settled id)
    (k : Nat) (p : Pending) (time : Millis) (recording : s.hand? k = some (p, .recording time)) :
    p.id ≠ id := by
  intro name
  rcases settles with ⟨i, q, phase, hand, name', accepted⟩ | ⟨_, idle⟩
  · obtain rfl := sound.eq_of_hand? hand recording (name'.trans name.symm)
      (Phase.onLane_of_isAccepted accepted) rfl
    rw [recording] at hand
    cases hand
    cases accepted
  · have live := idle k p _ recording name
    cases live

/-- The id of the delivery that a move answers with success. -/
def accepts (s : Service) : Move → Option String
  | .answer task (.ok r) =>
    match s.stage? task with
    | some (.posting p _) =>
      if 200 ≤ r.status.val ∧ r.status.val ≤ 299 then some p.id else none
    | _ => none
  | _ => none

/-- The ids of the deliveries that are answered with success in a run. -/
def acceptances (s : Service) : List Move → List String
  | [] => []
  | m :: ms => (s.accepts m).toList ++ (s.step m).acceptances ms

theorem accepts_eq_some (accepted : s.accepts m = some id) :
    ∃ task p a, s.hand? task = some (p, .posted) ∧ p.id = id ∧
      (s.step m).hand? task = some (p, .answered a) ∧ a.isSuccess = true := by
  unfold accepts at accepted
  split at accepted
  case h_2 => cases accepted
  case h_1 task r =>
    split at accepted
    case h_2 => cases accepted
    case h_1 p purpose at_ =>
      split at accepted
      case isFalse => cases accepted
      case isTrue success =>
        have name : p.id = id := Option.some.inj accepted
        have there : (s.stage? task).isSome := by simp [at_]
        have class_ : Answer.classify (.ok r) = .success r.body (r.header? "etag") := by
          rw [Answer.classify, if_pos success]
        refine ⟨task, p, .success r.body (r.header? "etag"), ?_, name, ?_, rfl⟩
        · rw [hand?, view_of_stage? at_]
          rfl
        · simp only [step, answer, at_, class_, hand?, view_setStage there, Function.update_self]
          rfl

theorem Sound.not_accepted (sound : s.Sound home) (settles : s.Settling id ∨ s.Settled id) :
    s.accepts m ≠ some id := by
  intro again
  obtain ⟨task, p, _, hand, name, _⟩ := accepts_eq_some again
  rcases settles with ⟨i, q, phase, hand', name', accepted⟩ | ⟨_, idle⟩
  · obtain rfl := sound.eq_of_hand? hand' hand (name'.trans name.symm)
      (Phase.onLane_of_isAccepted accepted) rfl
    rw [hand] at hand'
    cases hand'
    cases accepted
  · have live := idle task p _ hand name
    cases live

/-- The step of acceptance settles a delivery. -/
theorem Sound.settling_of_accepts (sound : s.Sound home) (accepted : s.accepts m = some id) :
    (∃ e, home id = some e) ∧ (s.step m).Settling id := by
  obtain ⟨task, p, a, hand, rfl, hand', success⟩ := accepts_eq_some accepted
  exact ⟨⟨_, sound.home_of_hand? hand⟩, task, p, _, hand', rfl, success⟩

/-- What is settled stays so in every run, and is accepted in none. -/
theorem Sound.settled_run (sound : s.Sound home) (known : home id = some e)
    (settles : s.Settling id ∨ s.Settled id) (ms : List Move) :
    ((s.run ms).Settling id ∨ (s.run ms).Settled id) ∧ id ∉ s.acceptances ms := by
  induction ms generalizing s home with
  | nil => exact ⟨settles, List.not_mem_nil⟩
  | cons m ms ih =>
    obtain ⟨home', more, next⟩ := sound.step m
    obtain ⟨last, never⟩ := ih next (more id e known) (sound.settles known settles m)
    refine ⟨last, ?_⟩
    rw [acceptances, List.mem_append, Option.mem_toList]
    rintro (now | later)
    · exact sound.not_accepted settles now
    · exact never later

theorem Sound.acceptances_count (sound : s.Sound home) (ms : List Move) (id : String) :
    (s.acceptances ms).count id ≤ 1 := by
  induction ms generalizing s home with
  | nil => exact Nat.zero_le 1
  | cons m ms ih =>
    obtain ⟨home', more, next⟩ := sound.step m
    rw [acceptances, List.count_append]
    cases now : s.accepts m with
    | none => simpa using ih next
    | some i =>
      by_cases same : i = id
      · subst same
        obtain ⟨⟨e, known⟩, settling⟩ := sound.settling_of_accepts now
        have never := (next.settled_run (more i e known) (.inl settling) ms).2
        rw [List.count_eq_zero.mpr never]
        simp
      · have other : List.count id [i] = 0 := by simp [same]
        rw [Option.toList_some, other, Nat.zero_add]
        exact ih next

/-- In any run each delivery is accepted once at most. After that it is never sent, and it is never
put back into the queue. -/
theorem accepted_once (initial : s.Initial) (ids : s.DistinctIds) (id : String) :
    (∀ ms, (s.acceptances ms).count id ≤ 1) ∧
      ∀ before m later m', (s.run before).accepts m = some id →
        let t := s.run (before ++ m :: later)
        (∀ e clock payload, .post e id clock payload ∉ t.news m') ∧
          ∀ e, t.queue.get? e id = none → (t.step m').queue.get? e id = none := by
  obtain ⟨home, sound⟩ := initial.sound ids
  refine ⟨fun ms => sound.acceptances_count ms id, ?_⟩
  intro before m later m' accepted t
  obtain ⟨home₁, _, sound₁⟩ := sound.run before
  obtain ⟨⟨e, known⟩, settling⟩ := sound₁.settling_of_accepts accepted
  obtain ⟨home₂, more₂, sound₂⟩ := sound₁.step m
  obtain ⟨home₃, more₃, sound₃⟩ := sound₂.run later
  have settles := (sound₂.settled_run (more₂ id e known) (.inl settling) later).1
  have split : t = ((s.run before).step m).run later := run_append s before (m :: later)
  rw [split]
  refine ⟨fun f clock payload => sound₃.not_posted settles clock payload, ?_⟩
  intro f absent
  exact sound₃.not_reinserted (more₃ id e (more₂ id e known)) (sound₃.not_recording settles) absent

/-- The first delivery of a process is accepted. -/
theorem accepted_once_of_first_delivery :
    let s := start .default countedIds 0 5 ⟨.absent, 1000⟩ ⟨.absent, 1000⟩
    let before := [.call (.send .logs [7]), .advance 0, .work 0, .advance 0, .advance 0]
    let m := Move.answer 0 (.ok (.ofStatus 200))
    (∀ ms, (s.acceptances ms).count "d" ≤ 1) ∧
      ∀ later m',
        let t := s.run (before ++ m :: later)
        (∀ e clock payload, .post e "d" clock payload ∉ t.news m') ∧
          ∀ e, t.queue.get? e "d" = none → (t.step m').queue.get? e "d" = none := by
  intro s before m
  have initial : s.Initial := .start _ _ _ _ _ _
  have accepted : (s.run before).accepts m = some "d" := by decide +kernel
  have ids : s.DistinctIds := distinctIds_start countedIds_injective _ _ _ _ _
  obtain ⟨once, onward⟩ := accepted_once initial ids "d"
  exact ⟨once, fun later m' => onward before m later m' accepted⟩

end Service

end Outbox
