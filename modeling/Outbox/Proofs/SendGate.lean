import Mathlib.Data.List.Perm.Subperm
import Outbox.Proofs.LaneOrder

/-! # What is sent, and when

Whoever sends, and in whatever order the tasks move: no endpoint has two unanswered deliveries, and
what is sent is in the queue at that moment, while there is a connection and the endpoint does not
have to be left alone.
-/

namespace Outbox

namespace Service

variable {s : Service}

/-- The tasks that wait for the answer to a delivery that they sent to an endpoint. -/
def unanswered (s : Service) (e : Endpoint) : List Nat :=
  (List.range s.tasks.length).filter fun id =>
    match s.stage? id with
    | some (.posting p _) => p.endpoint == e
    | _ => false

theorem mem_unanswered {e : Endpoint} {id : Nat} :
    id ∈ s.unanswered e ↔
      ∃ p purpose, s.stage? id = some (.posting p purpose) ∧ p.endpoint = e := by
  simp only [unanswered, List.mem_filter, List.mem_range]
  constructor
  · rintro ⟨_, posting⟩
    split at posting
    case h_1 p purpose at_ => exact ⟨p, purpose, at_, by simpa using posting⟩
    case h_2 => cases posting
  · rintro ⟨p, purpose, at_, rfl⟩
    exact ⟨isSome_stage?.mp (by simp [at_]), by simp [at_]⟩

/-- Who has an unanswered delivery holds the lane. -/
theorem unanswered_subset (order : s.outline.InOrder) (e : Endpoint) :
    s.unanswered e ⊆ (s.lanes.get e).holders := by
  intro id member
  obtain ⟨p, purpose, at_, rfl⟩ := mem_unanswered.mp member
  apply (order.lanes.holds_iff p.endpoint id).mpr
  show (s.view id).position = _
  rw [view_of_stage? at_]
  rfl

theorem unanswered_le_one (order : s.outline.InOrder) (e : Endpoint) :
    (s.unanswered e).length ≤ 1 := by
  have nodup : (s.unanswered e).Nodup := List.nodup_range.filter _
  have within := (nodup.subperm (unanswered_subset order e)).length_le
  exact Nat.le_trans within (order.lanes.single e)

theorem stage_of_holds {p : Pending} {rest : List Pending} {id : Nat}
    (view : s.view id = .holds p rest) : ∃ purpose, s.stage? id = some (.onLane p purpose) := by
  have hand : (s.view id).hand? = none := by rw [view]; rfl
  have position : (s.view id).position = .holds p.endpoint := by rw [view]; rfl
  have pendings : (s.view id).pendings = p :: rest := by rw [view]; rfl
  unfold Service.view at hand position pendings
  split at hand
  case h_2 missing => simp [missing, View.idle] at position
  case h_1 stage at_ =>
    simp only [at_] at position pendings
    cases stage with
    | onLane q purpose =>
      have same : q = p := (List.cons.inj pendings).1
      exact ⟨purpose, same ▸ at_⟩
    | posting q purpose | answered q a purpose => cases hand
    | working w =>
      cases w with
      | remove q ending purpose | record q time purpose => cases hand
      | _ => cases position
    | worked done =>
      cases done with
      | removed q ending purpose | recorded q time purpose => cases hand
      | _ => cases position
    | _ => cases position

/-- Sending is the only thing that happens in its step, and what is sent was just found in the
queue. -/
theorem post_step {m : Move} {e : Endpoint} {id : String} {clock : Millis} {payload : Bytes}
    (posted : .post e id clock payload ∈ s.news m) :
    ∃ (task : Nat) (p : Pending) (purpose : Purpose) (current : Pending), m = .advance task ∧
      s.view task = .holds p purpose.rest ∧ p.endpoint = e ∧
      s.queue.get? e p.id = some current ∧ s.suppression? current = none ∧
      Happening.post e id clock payload = .post e current.id s.clock current.payload ∧
      s.step m = (s.note (.post e current.id s.clock current.payload)).setStage task
        (.posting current purpose) := by
  obtain ⟨added, o, moved, became⟩ := step_moved s m
  have mark : Happening.post e id clock payload ∈ added := by
    rw [← became.news]
    exact List.mem_filter.mpr ⟨posted, rfl⟩
  have onward {task : Nat} {ps : List Pending} {o o' : Outline} {later : List Happening}
      (next : Onward task ps o later o') : Happening.post e id clock payload ∉ later := by
    cases next <;> simp
  cases moved with
  | quiet | works deed | answers reply view | arrives e type fills fresh => cases mark
  | @acts task _ _ act =>
    cases act with
    | idle | accepts | holds | counts => cases mark
    | refuses => simp at mark
    | goes known free away next => exact absurd mark (onward next)
    | yields view next => exact absurd mark (onward next)
    | @ends p ending rest later o view next =>
      rcases List.mem_append.mp mark with first | last
      · exact absurd first (onward next)
      · simp at last
    | @posts p current rest view found free =>
      rw [List.mem_singleton] at mark
      obtain ⟨purpose, at_⟩ := stage_of_holds view
      have endpoint : e = p.endpoint := by
        injection mark
      subst endpoint
      refine ⟨task, p, purpose, current, rfl, view_of_stage? at_, rfl, found, free, mark, ?_⟩
      simp only [step, advance, at_, send, found, free]

/-- Nothing holds a delivery back when there is a connection, for all that is known, and the
endpoint does not have to be left alone any more. -/
theorem suppression?_eq_none {p : Pending} : s.suppression? p = none ↔
    s.network ≠ .notReachable ∧
      ∀ deadline, (s.limits.states.get p.endpoint).deadline? = some deadline →
        deadline.val ≤ s.clock.val := by
  have limited : s.limits.isLimited p.endpoint s.clock = false ↔
      ∀ deadline, (s.limits.states.get p.endpoint).deadline? = some deadline →
        deadline.val ≤ s.clock.val := by
    unfold RateLimits.isLimited RateLimits.limitedUntil?
    cases known : (s.limits.states.get p.endpoint).deadline? with
    | none => simp
    | some deadline => simp [Option.filter_some, Option.isSome_eq_false_iff]
  rw [← limited, suppression?, isOffline]
  cases s.network <;> cases s.limits.isLimited p.endpoint s.clock <;> simp

/-- At any time each endpoint has at most one unanswered delivery. Whenever one is sent, right after
that step it is in the queue of its endpoint with the payload that was sent, there is a connection
for all that is known, and the endpoint does not have to be left alone any more. -/
theorem send_gate (reachable : s.Reachable) :
    (∀ e, (s.unanswered e).length ≤ 1) ∧
      ∀ m e id clock payload, .post e id clock payload ∈ s.news m →
        (∃ p, (s.step m).queue.get? e id = some p ∧ p.payload = payload) ∧
        (s.step m).network ≠ .notReachable ∧ (s.step m).clock = clock ∧
        ∀ deadline, ((s.step m).limits.states.get e).deadline? = some deadline →
          deadline.val ≤ clock.val := by
  have order := reachable.inOrder
  refine ⟨unanswered_le_one order, ?_⟩
  intro m e id clock payload posted
  obtain ⟨task, p, purpose, current, rfl, _, home, found, free, same, stepped⟩ := post_step posted
  obtain ⟨rfl, rfl, rfl⟩ : id = current.id ∧ clock = s.clock ∧ payload = current.payload := by
    injection same with _ id clock payload
    exact ⟨id, clock, payload⟩
  obtain ⟨endpoint, name, held⟩ := order.tidy.get?_eq_some_iff.mp found
  obtain ⟨online, due⟩ := suppression?_eq_none.mp free
  rw [stepped]
  refine ⟨⟨current, ?_, rfl⟩, online, rfl, ?_⟩
  · show s.queue.get? e current.id = some current
    rw [name, found]
  · intro deadline known
    exact due deadline (endpoint ▸ known)

/-- The first delivery of a process that finds nothing on disk. -/
theorem send_gate_of_first_delivery :
    let s := (start .default (fun _ => "d") 0 5 ⟨.absent, 1000⟩ ⟨.absent, 1000⟩).run
      [.call (.send .logs [7]), .advance 0, .work 0, .advance 0]
    let t := s.step (.advance 0)
    (∀ e, (s.unanswered e).length ≤ 1) ∧
      (∃ p, t.queue.get? .logs "d" = some p ∧ p.payload = [7]) ∧
      t.network ≠ .notReachable ∧ t.clock = 5 ∧
      ∀ deadline, (t.limits.states.get .logs).deadline? = some deadline → deadline.val ≤ 5 := by
  intro s t
  have reachable : s.Reachable := (Reachable.start _ _ _ _ _ _).run _
  have posted : Happening.post .logs "d" 5 [7] ∈ s.news (.advance 0) := by decide +kernel
  obtain ⟨single, gate⟩ := send_gate reachable
  exact ⟨single, gate (.advance 0) .logs "d" 5 [7] posted⟩

end Service

end Outbox
