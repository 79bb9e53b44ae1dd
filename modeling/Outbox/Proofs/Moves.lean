import Outbox.Proofs.Deeds

/-! # Runs of the service

A run is any sequence of moves: calls of the host, changes of the network and of the clock, answers
of the collector, files that were dealt with, and steps of tasks. Tasks may move in any order.
-/

namespace Outbox

/-- A call of the host. -/
inductive Request where
  | send (endpoint : Endpoint) (payload : Bytes)
  | deliver (envelope : Envelope) (type : SnapshotType)
  | flush
  | fetch (endpoint : Endpoint) (etag : Option String)
  | resurrect
  deriving Repr, DecidableEq

/-- The job of a call. -/
def Request.job : Request → Job
  | send e payload => .send e payload
  | deliver e type => .deliver e type
  | flush => .flush
  | fetch e etag => .fetch e etag
  | resurrect => .resurrect

/-- What can happen next. -/
inductive Move where
  | call (request : Request)
  /-- The session hands over an envelope. -/
  | envelope (envelope : Envelope) (type : SnapshotType)
  | network (status : NetworkStatus)
  | setClock (time : Millis)
  /-- Time passes for the timers. -/
  | elapse (span : Nat)
  | advance (id : Nat)
  /-- Files are dealt with for a task. -/
  | work (id : Nat)
  | answer (id : Nat) (reply : Except TransportError Response)
  | fire (id : Nat)
  deriving Repr

/-- The task that a move is about. -/
def Move.task? : Move → Option Nat
  | advance id | work id | answer id _ => some id
  | _ => none

namespace Service

/-- The service after one move. -/
def step (s : Service) : Move → Service
  | .call request => s.call request.job
  | .envelope e type => s.sendEnvelope e type
  | .network status => s.setNetwork status
  | .setClock time => { s with clock := time }
  | .elapse span => { s with elapsed := s.elapsed + span }
  | .advance id => s.advance id
  | .work id => s.work id
  | .answer id reply => s.answer id (.classify reply)
  | .fire id => s.fire id

/-- The service after some moves. -/
def run (s : Service) (ms : List Move) : Service := ms.foldl step s

theorem run_append (s : Service) (ms ns : List Move) : s.run (ms ++ ns) = (s.run ms).run ns :=
  List.foldl_append

theorem run_concat (s : Service) (ms : List Move) (m : Move) :
    s.run (ms ++ [m]) = (s.run ms).step m := by
  rw [run_append]
  rfl

/-- What happens in one move, the latest first. -/
def news (s : Service) (m : Move) : List Happening :=
  (s.step m).journal.take ((s.step m).journal.length - s.journal.length)

/-- A service over what is on disk, with the queue loaded any number of times. -/
inductive Initial : Service → Prop where
  | start (config : Config) (idOf : Nat → String) (made : Nat) (clock : Millis)
      (pending snapshots : Storage.Store) :
      Initial (.start config idOf made clock pending snapshots)
  | load {s : Service} (initial : Initial s) : Initial s.loadQueue.1

/-- A service after any moves and loads of the queue. -/
inductive Reachable : Service → Prop where
  | start (config : Config) (idOf : Nat → String) (made : Nat) (clock : Millis)
      (pending snapshots : Storage.Store) :
      Reachable (.start config idOf made clock pending snapshots)
  | load {s : Service} (reachable : Reachable s) : Reachable s.loadQueue.1
  | move {s : Service} (reachable : Reachable s) (m : Move) : Reachable (s.step m)

theorem Initial.reachable {s : Service} (initial : Initial s) : Reachable s := by
  induction initial with
  | start config idOf made clock pending snapshots => exact .start _ _ _ _ _ _
  | load _ ih => exact .load ih

theorem Reachable.run {s : Service} (reachable : Reachable s) (ms : List Move) :
    Reachable (s.run ms) := by
  induction ms generalizing s with
  | nil => exact reachable
  | cons m ms ih => exact ih (.move reachable m)

end Service

/-- What one move does to the outline, and the marks it makes. -/
inductive Moved (s : Service) : Move → List Happening → Outline → Prop where
  | quiet (m : Move) : Moved s m [] s.outline
  | acts {id : Nat} {added : List Happening} {o : Outline} (act : Act s id added o) :
      Moved s (.advance id) added o
  | works {id : Nat} {o : Outline} (deed : Deed s id o) : Moved s (.work id) [] o
  | answers {id : Nat} {p : Pending} {rest : List Pending} (reply : Except TransportError Response)
      (view : s.view id = .has p .posted rest) :
      Moved s (.answer id reply) []
        (s.outline.put id (.has p (.answered (.classify reply)) rest))
  | arrives {p : Pending} {o : Outline} {id : Nat} (e : Envelope) (type : SnapshotType)
      (fills : Fills s.idOf s.outline [p] o) (fresh : o.view id = .idle []) :
      Moved s (.envelope e type) [] (o.put id (.idle [p]))

namespace Service

variable {s : Service}

theorem step_moved (s : Service) (m : Move) :
    ∃ added o, Moved s m added o ∧ Becomes added o s (s.step m) := by
  cases m with
  | call request =>
    have woken : Quiet s { s with ready := s.tasks.length :: s.ready } :=
      .aside rfl rfl rfl rfl rfl rfl rfl
    have nothing : request.job.pendings = [] := by cases request <;> rfl
    exact ⟨_, _, .quiet _, woken.trans (addTask_quiet _ (by rw [Stage.view, nothing]))⟩
  | envelope e type =>
    rcases sendEnvelope_becomes s e type with ⟨p, o, id, fills, fresh, became⟩ | quiet
    · exact ⟨_, _, .arrives e type fills fresh, became⟩
    · exact ⟨_, _, .quiet _, quiet⟩
  | network status =>
    have changed : Quiet s { s with network := status } := .aside rfl rfl rfl rfl rfl rfl rfl
    refine ⟨_, _, .quiet _, ?_⟩
    unfold step setNetwork
    dsimp only
    split
    · exact changed.trans (spawn_quiet _ rfl)
    · exact changed
  | setClock time => exact ⟨_, _, .quiet _, Quiet.aside rfl rfl rfl rfl rfl rfl rfl⟩
  | elapse span => exact ⟨_, _, .quiet _, Quiet.aside rfl rfl rfl rfl rfl rfl rfl⟩
  | advance id =>
    obtain ⟨added, o, act, became⟩ := advance_acts s id
    exact ⟨_, _, .acts act, became⟩
  | work id =>
    obtain ⟨o, deed, became⟩ := work_deeds s id
    exact ⟨_, _, .works deed, became⟩
  | answer id reply =>
    rcases answer_becomes s id (.classify reply) with ⟨p, rest, view, became⟩ | ⟨_, quiet⟩
    · exact ⟨_, _, .answers reply view, became⟩
    · exact ⟨_, _, .quiet _, quiet⟩
  | fire id =>
    refine ⟨_, _, .quiet _, ?_⟩
    unfold step fire
    dsimp only
    split
    case h_1 time job at_ =>
      split
      · have woken : Quiet s (s.setStage id (.spawned job)) := setStage_quiet at_ rfl
        exact woken.trans (wake_quiet _ id)
      · exact Quiet.refl s
    case h_2 => exact Quiet.refl s

/-- The marks that a move makes are what happens in it that matters for deliveries. -/
theorem Becomes.news {m : Move} {added : List Happening} {o : Outline}
    (became : Becomes added o s (s.step m)) : (s.news m).filter Happening.isMark = added := by
  obtain ⟨hs, shape, marks⟩ := became.journal
  have new : s.news m = hs := by
    rw [Service.news, shape, List.length_append, Nat.add_sub_cancel, List.take_left]
  rw [new, marks]

theorem loadQueue_becomes (s : Service) :
    Becomes [] (s.outline.withQueue s.queue.load.1) s s.loadQueue.1 := by
  have loaded : Becomes [] (s.outline.withQueue s.queue.load.1) s
      { s with queue := s.queue.load.1 } :=
    ⟨rfl, rfl, Nat.le_refl _, ⟨[], rfl, rfl⟩, rfl⟩
  exact loaded.quiet (report_quiet s.queue.load_plain)

end Service

end Outbox
