import Mathlib.Logic.Function.Basic
import Outbox.Delivery.Service

/-! # What tasks have to do with deliveries

Most of the state of the service does not matter for what becomes of a delivery. The outline of a
state is the part that does: the queue, the lanes, and for each task where it stands on the lanes,
which delivery it has in hand, and which ones it may still look at. From the journal only some
entries matter: deliveries that were sent, and the ways in which they end.
-/

namespace Outbox

/-- How far a task is with the delivery that it has in hand. -/
inductive Phase where
  | posted
  | answered (answer : Answer)
  /-- A failed attempt is about to be counted. -/
  | recording (time : Millis)
  | recorded
  /-- It is about to leave the queue. -/
  | removing (ending : Ending)
  | removed (ending : Ending)
  deriving Repr, DecidableEq

/-- Whether a delivery ends under the lane of its endpoint. -/
def Ending.onLane : Ending → Bool
  | delivered => true
  | dropped _ onLane => onLane

namespace Phase

/-- The task has the lane of the endpoint. -/
def onLane : Phase → Bool
  | removing ending | removed ending => ending.onLane
  | _ => true

/-- The task waits for something. -/
def waits : Phase → Bool
  | posted | recording _ | removing _ => true
  | _ => false

end Phase

/-- Where a task is on the lanes. -/
inductive Position where
  | away
  | waits (endpoint : Endpoint)
  | holds (endpoint : Endpoint)
  deriving Repr, DecidableEq

/-- What a task has to do with deliveries. -/
structure View where
  position : Position
  hand? : Option (Pending × Phase)
  /-- The deliveries that it knows, the one in hand first. -/
  pendings : List Pending
  deriving Repr, DecidableEq

namespace View

/-- A task that has nothing in hand. -/
def idle (ps : List Pending) : View := ⟨.away, none, ps⟩

/-- A task that waits for the lane, to send a delivery. -/
def waits (p : Pending) (rest : List Pending) : View := ⟨.waits p.endpoint, none, p :: rest⟩

/-- A task that got the lane, to send a delivery. -/
def holds (p : Pending) (rest : List Pending) : View := ⟨.holds p.endpoint, none, p :: rest⟩

/-- A task that has a delivery in hand. -/
def has (p : Pending) (phase : Phase) (rest : List Pending) : View :=
  ⟨if phase.onLane then .holds p.endpoint else .away, some (p, phase), p :: rest⟩

/-- A task that waited for a lane gets it. -/
def enter (v : View) : View :=
  match v.position with
  | .waits e => { v with position := .holds e }
  | _ => v

@[simp]
theorem enter_hand? (v : View) : v.enter.hand? = v.hand? := by
  unfold enter
  split <;> rfl

@[simp]
theorem enter_pendings (v : View) : v.enter.pendings = v.pendings := by
  unfold enter
  split <;> rfl

@[simp]
theorem enter_enter (v : View) : v.enter.enter = v.enter := by
  obtain ⟨position, hand, ps⟩ := v
  cases position <;> rfl

end View

/-- The deliveries that come after the one of an attempt. -/
def Purpose.rest : Purpose → List Pending
  | .replay _ rest _ => rest
  | .send | .final _ _ => []

/-- The deliveries that a job brings with it. -/
def Job.pendings : Job → List Pending
  | .sendFinal _ p _ => [p]
  | _ => []

/-- What a task at this stage has to do with deliveries. -/
def Stage.view : Stage → View
  | sleeping _ job | spawned job | atWorkers job | starting job => .idle job.pendings
  | working (.remove p ending purpose) => .has p (.removing ending) purpose.rest
  | working (.record p time purpose) => .has p (.recording time) purpose.rest
  | worked (.removed p ending purpose) => .has p (.removed ending) purpose.rest
  | worked (.recorded p _ purpose) => .has p .recorded purpose.rest
  | worked (.enqueued p) | worked (.persisted _ p _) => .idle [p]
  | atLane p purpose => .waits p purpose.rest
  | onLane p purpose => .holds p purpose.rest
  | posting p purpose => .has p .posted purpose.rest
  | answered p a purpose => .has p (.answered a) purpose.rest
  | _ => .idle []

/-- The part of a state that matters for deliveries. -/
structure Outline where
  made : Nat
  queue : Queue
  lanes : PerEndpoint (Permits Nat)
  view : Nat → View

namespace Outline

/-- Another view of one task. -/
def put (o : Outline) (id : Nat) (v : View) : Outline :=
  { o with view := Function.update o.view id v }

/-- These tasks get the lane that they wait for. -/
def enter (o : Outline) (granted : List Nat) : Outline :=
  { o with view := fun id => if id ∈ granted then (o.view id).enter else o.view id }

/-- A task asks for the lane of an endpoint. -/
def request (o : Outline) (id : Nat) (e : Endpoint) : Outline :=
  let (lane, granted) := (o.lanes.get e).request id
  { o with lanes := o.lanes.set e lane }.enter granted

/-- A task gives back the lane of an endpoint. -/
def leave (o : Outline) (id : Nat) (e : Endpoint) : Outline :=
  let (lane, granted) := (o.lanes.get e).leave id
  { o with lanes := o.lanes.set e lane }.enter granted

end Outline

/-! ## Entries of the journal -/

/-- The message about a delivery that is given up. -/
def dropMessage (e : Endpoint) (id : String) (reason : DropReason) : String :=
  "Dropped delivery " ++ id ++ " to " ++ e.name ++ ": " ++ reason.name

/-- The report about a delivery that is given up. -/
def Report.drop (p : Pending) (reason : DropReason) : Report :=
  ⟨if reason = .stale then .staleDeliveryDropped else .deliveryDataLoss,
    dropMessage p.endpoint p.id reason, none⟩

/-- How each message about a delivery that is given up begins. -/
def dropPrefix : List Char := "Dropped delivery ".toList

/-- The report is not about a delivery that is given up. -/
def Report.Plain (r : Report) : Prop := ¬dropPrefix <+: r.message.toList

instance (r : Report) : Decidable r.Plain := inferInstanceAs (Decidable (¬_))

/-- The event that tells how a delivery ended. -/
def Ending.event (p : Pending) : Ending → Event
  | delivered => .delivered p.endpoint p.id
  | dropped reason _ => .dropped p.endpoint p.id reason

/-- The entry is about a delivery that was sent, or about the end of one. -/
def Happening.isMark : Happening → Bool
  | post _ _ _ _ | event (.delivered _ _) | event (.dropped _ _ _) => true
  | report r => dropPrefix.isPrefixOf r.message.toList
  | _ => false

theorem Happening.isMark_report (r : Report) : (report r).isMark = false ↔ r.Plain := by
  rw [isMark, Bool.eq_false_iff, Report.Plain, ne_eq, List.isPrefixOf_iff_prefix]

theorem dropMessage_prefix (e : Endpoint) (id : String) (reason : DropReason) :
    dropPrefix <+: (dropMessage e id reason).toList := by
  unfold dropMessage dropPrefix
  generalize "Dropped delivery " = start
  simp only [String.toList_append, List.append_assoc]
  exact List.prefix_append _ _

theorem Happening.isMark_drop (p : Pending) (reason : DropReason) :
    (report (.drop p reason)).isMark = true := by
  rw [isMark, List.isPrefixOf_iff_prefix]
  exact dropMessage_prefix p.endpoint p.id reason

theorem Happening.isMark_end (p : Pending) (ending : Ending) :
    (event (ending.event p)).isMark = true := by
  cases ending <;> rfl

namespace Service

/-- What a task has to do with deliveries. -/
def view (s : Service) (id : Nat) : View :=
  match s.stage? id with
  | some stage => stage.view
  | none => .idle []

/-- The part of the state that matters for deliveries. -/
def outline (s : Service) : Outline := ⟨s.made, s.queue, s.lanes, s.view⟩

theorem view_of_stage? {s : Service} {id : Nat} {stage : Stage} (at_ : s.stage? id = some stage) :
    s.view id = stage.view := by
  rw [view, at_]

theorem stage?_setStage (s : Service) (id j : Nat) (stage : Stage) :
    (s.setStage id stage).stage? j =
      if j = id then (s.stage? j).map fun _ => stage else s.stage? j := by
  simp only [stage?, setStage, List.getElem?_modify]
  split
  case isTrue same => simp [same, Function.comp_def]
  case isFalse other => simp [Ne.symm other]

theorem view_setStage {s : Service} {id : Nat} (there : (s.stage? id).isSome) (stage : Stage) :
    (s.setStage id stage).view = Function.update s.view id stage.view := by
  funext j
  rw [view, stage?_setStage]
  by_cases same : j = id
  · subst same
    obtain ⟨old, found⟩ := Option.isSome_iff_exists.mp there
    simp [found]
  · simp [same, view]

/-- A stage that means the same for deliveries changes nothing. -/
theorem view_setStage_same {s : Service} {id : Nat} {old stage : Stage}
    (at_ : s.stage? id = some old) (same : stage.view = old.view) :
    (s.setStage id stage).view = s.view := by
  rw [view_setStage (by simp [at_]), same, ← view_of_stage? at_, Function.update_eq_self]

theorem view_length (s : Service) : s.view s.tasks.length = .idle [] := by
  simp [view, stage?]

theorem view_addTask (s : Service) (t : Task) :
    (s.addTask t).view = Function.update s.view s.tasks.length t.stage.view := by
  funext j
  simp only [view, stage?, addTask, Function.update_apply, List.getElem?_append]
  by_cases inside : j < s.tasks.length
  · rw [if_pos inside, if_neg (Nat.ne_of_lt inside)]
  · have missing : s.tasks[j]? = none := List.getElem?_eq_none (Nat.le_of_not_lt inside)
    rw [if_neg inside, missing]
    by_cases last : j = s.tasks.length
    · simp [last]
    · have beyond : j - s.tasks.length ≠ 0 := by omega
      simp [last, beyond]

end Service

end Outbox
