import Outbox.Proofs.Identity
import Outbox.Proofs.Turns

/-! # The outcome of a task

A task comes to an outcome when its delivery was left in the queue, was not there, or has left it.
Only replays give up a delivery without the lane, and they have no outcome.
-/

namespace Outbox

/-- The outcome decides how a replay goes on. -/
def Purpose.isReplay : Purpose → Bool
  | replay _ _ _ => true
  | send | final _ _ => false

namespace Stage

/-- The outcome of the attempt that a task has made. -/
def outcome? : Stage → Option SendOutcome
  | finished (.sent outcome) => some outcome
  | finished (.handled outcome) => outcome
  | working (.discard _ outcome) | worked (.discarded outcome) => some outcome
  | _ => none

/-- Whoever gives up a delivery without the lane replays its endpoint. -/
def Proper : Stage → Prop
  | working (.remove _ ending purpose) | worked (.removed _ ending purpose) =>
    ending.onLane = true ∨ purpose.isReplay = true
  | _ => True

variable {a b : Stage} {o : SendOutcome}

theorem Near.outcome? (near : Near a b) : b.outcome? = a.outcome? := by
  cases near <;> rfl

theorem Near.proper (near : Near a b) (proper : a.Proper) : b.Proper := by
  cases near with
  | refl => exact proper
  | seated | entered | counted => trivial

theorem Young.outcome? (young : Young a) : a.outcome? = none := by
  cases young <;> rfl

theorem Young.proper (young : Young a) : a.Proper := by
  cases young <;> trivial

end Stage

/-! ## One step of a task -/

section

variable {s : Service} {p : Pending} {ps : List Pending} {purpose : Purpose} {e : Endpoint}
  {n j : Nat} {held : List (Pending × QueueReason)} {old stage : Stage} {o o' : SendOutcome}
  {m : Move}

theorem Tries.proper (tries : Tries p purpose held stage) : stage.Proper := by
  cases tries <;> trivial

theorem Replays.proper (replays : Replays e n ps held stage) : stage.Proper := by
  cases replays with
  | done => trivial
  | givesUp p rest => exact .inr rfl
  | tries tries => exact tries.proper

theorem Concludes.proper (concludes : Concludes o purpose held stage) : stage.Proper := by
  cases concludes with
  | replays _ replays => exact replays.proper
  | queued | sent | discards | handled => trivial

theorem Leads.proper (leads : Leads s old held stage) (proper : old.Proper) : stage.Proper := by
  cases leads with
  | stays => exact proper
  | triesFinal tries | triesEnqueued tries | triesPersisted tries => exact tries.proper
  | replays _ replays => exact replays.proper
  | ends concludes | retries concludes | skips _ concludes | holds _ concludes
  | limited concludes => exact concludes.proper
  | ceiling | accepts | refuses => exact .inl rfl
  | _ => trivial

theorem gets_proper (gets : stage.Gets s j m old) (proper : stage.Proper) : old.Proper := by
  cases gets with
  | same => exact proper
  | works w =>
    cases w with
    | remove p ending purpose => exact proper
    | _ => trivial
  | fires | answers | hears => trivial

theorem newcomer_proper (new : stage.Newcomer s m) : stage.Proper := by
  cases new <;> trivial

/-- The outcome of an attempt that did not get as far as the lane. -/
theorem Tries.outcome (tries : Tries p purpose held stage) (got : stage.outcome? = some o) :
    ∃ reason, o = .queued reason ∧ held = [(p, reason)] := by
  cases tries with
  | held reason => cases purpose <;> cases got <;> exact ⟨reason, rfl, rfl⟩
  | waits | enters => cases got

/-- A replay has no outcome. -/
theorem Replays.outcome (replays : Replays e n ps held stage) : stage.outcome? = none := by
  cases replays with
  | done | givesUp => rfl
  | tries tries => cases tries <;> rfl

/-- The outcome of an attempt is the outcome of its task, unless that is a replay. -/
theorem Concludes.outcome (concludes : Concludes o purpose held stage)
    (got : stage.outcome? = some o') : o' = o ∧ purpose.isReplay = false := by
  cases concludes with
  | queued reason purpose => cases purpose <;> cases got <;> exact ⟨rfl, rfl⟩
  | sent | discards | handled =>
    cases got
    exact ⟨rfl, rfl⟩
  | replays _ replays =>
    rw [replays.outcome] at got
    cases got

theorem Purpose.rest_of_no_replay (other : purpose.isReplay = false) : purpose.rest = [] := by
  cases purpose with
  | send | final => rfl
  | replay => cases other

/-- Where the outcome of a task comes from: it had it before, or there is nobody to send to, or its
only delivery was left in the queue, was not there or has left it. -/
inductive Comes (s : Service) (old : Stage) (held : List (Pending × QueueReason)) :
    SendOutcome → Prop where
  | before {o : SendOutcome} (same : old.outcome? = some o) : Comes s old held o
  | unsupported : Comes s old held (.dropped .unsupportedEndpoint)
  | queued {p h : Pending} {reason : QueueReason} (mine : old.view.pendings = [p])
      (home : h.endpoint = p.endpoint) (name : h.id = p.id) (told : (h, reason) ∈ held) :
      Comes s old held (.queued reason)
  | skipped {p : Pending} (mine : old.view.pendings = [p])
      (missing : s.queue.get? p.endpoint p.id = none) : Comes s old held .skipped
  | ended {p : Pending} {ending : Ending} {purpose : Purpose} {o : SendOutcome}
      (mine : old.view.pendings = [p]) (at_ : old = .worked (.removed p ending purpose))
      (other : purpose.isReplay = false) (same : o = ending.outcome) : Comes s old held o

theorem Leads.outcome (tidy : s.queue.Tidy) (leads : Leads s old held stage)
    (got : stage.outcome? = some o) : Comes s old held o := by
  have tried {p : Pending} {purpose : Purpose} (mine : old.view.pendings = [p])
      (tries : Tries p purpose held stage) : Comes s old held o := by
    obtain ⟨reason, rfl, rfl⟩ := tries.outcome got
    exact .queued mine rfl rfl (List.mem_singleton_self _)
  have left {p h : Pending} {purpose : Purpose} {reason : QueueReason}
      (mine : old.view.pendings = p :: purpose.rest) (home : h.endpoint = p.endpoint)
      (name : h.id = p.id) (told : held = [(h, reason)])
      (concludes : Concludes (.queued reason) purpose [] stage) : Comes s old held o := by
    obtain ⟨rfl, other⟩ := concludes.outcome got
    rw [Purpose.rest_of_no_replay other] at mine
    exact .queued mine home name (told ▸ List.mem_singleton_self _)
  cases leads with
  | stays => exact .before got
  | rejects =>
    cases got
    exact .unsupported
  | triesFinal tries | triesEnqueued tries | triesPersisted tries => exact tried rfl tries
  | replays _ replays =>
    rw [replays.outcome] at got
    cases got
  | discarded outcome => exact .before got
  | ends concludes =>
    obtain ⟨rfl, other⟩ := concludes.outcome got
    refine .ended ?_ rfl other rfl
    rw [Stage.view, View.has, Purpose.rest_of_no_replay other]
  | skips missing concludes =>
    obtain ⟨rfl, other⟩ := concludes.outcome got
    refine .skipped ?_ missing
    rw [Stage.view, View.holds, Purpose.rest_of_no_replay other]
  | retries concludes => exact left rfl rfl rfl rfl concludes
  | holds found concludes =>
    obtain ⟨home, name, _⟩ := tidy.get?_eq_some_iff.mp found
    exact left rfl home name rfl concludes
  | limited concludes => exact left rfl rfl rfl rfl concludes
  | _ => cases got

theorem gets_outcome (gets : stage.Gets s j m old) (got : old.outcome? = some o) :
    stage.outcome? = some o := by
  cases gets with
  | same => exact got
  | works w =>
    cases w with
    | discard e outcome => exact got
    | _ => cases got
  | fires | answers | hears => cases got

theorem newcomer_outcome (new : stage.Newcomer s m) : stage.outcome? = none := by
  cases new <;> rfl

/-- Whatever a step leaves in the queue, the task knew it, or it is in the queue. -/
theorem Leads.known (tidy : s.queue.Tidy) (leads : Leads s old held stage)
    {h : Pending × QueueReason} (left : h ∈ held) :
    h.1 ∈ old.view.pendings ∨ s.queue.Holds h.1 := by
  have tried {p : Pending} {purpose : Purpose} {held : List (Pending × QueueReason)}
      {stage : Stage} (tries : Tries p purpose held stage) (left : h ∈ held) : h.1 = p := by
    cases tries with
    | held reason => rw [List.mem_singleton.mp left]
    | waits | enters => cases left
  have replayed {e : Endpoint} {n : Nat} {ps : List Pending} {held : List (Pending × QueueReason)}
      {stage : Stage} (replays : Replays e n ps held stage) (left : h ∈ held) : h.1 ∈ ps := by
    cases replays with
    | done | givesUp => cases left
    | tries tries => exact tried tries left ▸ List.mem_cons_self
  have concluded {o : SendOutcome} {purpose : Purpose} {held : List (Pending × QueueReason)}
      {stage : Stage} (concludes : Concludes o purpose held stage) (left : h ∈ held) :
      h.1 ∈ purpose.rest := by
    cases concludes with
    | queued | sent | discards | handled => cases left
    | replays _ replays => exact replayed replays left
  cases leads with
  | triesFinal tries | triesEnqueued tries | triesPersisted tries =>
    exact .inl (tried tries left ▸ List.mem_cons_self)
  | replays _ replays => exact .inr (tidy.holds_of_mem (replayed replays left)).1
  | ends concludes => exact .inl (List.mem_cons_of_mem _ (concluded concludes left))
  | skips _ concludes => exact .inl (List.mem_cons_of_mem _ (concluded concludes left))
  | retries | limited =>
    rw [List.mem_singleton.mp left]
    exact .inl List.mem_cons_self
  | holds found =>
    rw [List.mem_singleton.mp left]
    exact .inr (tidy.get?_eq_some_iff.mp found).2.2
  | _ => cases left

end

end Outbox
