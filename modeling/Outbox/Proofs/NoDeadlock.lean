import Outbox.Proofs.Care
import Outbox.Proofs.Crew
import Outbox.Proofs.Results

/-! # Nobody waits for ever

Workers and lanes are given out to whoever waits for them, but a task keeps its worker while it
waits for a lane, and a flush keeps it while it waits for replays. Still no tasks wait for each
other in a circle: the tasks of a flush need no worker, and whoever has a lane waits for no task. So
once no task can go on, no file is dealt with and no answer is due, only timers are left.
-/

namespace Outbox

namespace Stage

/-- The stages of a task that a flush waits for. -/
def InReplay : Stage → Prop
  | starting (.replay _) | finished (.count _) => True
  | atLane _ purpose | onLane _ purpose | posting _ purpose | answered _ _ purpose
  | working (.remove _ _ purpose) | working (.record _ _ purpose)
  | worked (.removed _ _ purpose) | worked (.recorded _ _ purpose) => purpose.isReplay = true
  | _ => False

/-- It waits for an answer of a collector. -/
def isCalling : Stage → Bool
  | posting _ _ | asking _ => true
  | _ => false

/-- It waits for a worker or for a lane. -/
def isWaiting : Stage → Bool
  | atWorkers _ | atLane _ _ => true
  | _ => false

/-- It goes on by itself, or waits for files or for an answer. -/
def isGoing (stage : Stage) : Bool := stage.isRunnable || stage.isWorking || stage.isCalling

variable {a b : Stage}

theorem Near.inReplay (near : Near a b) (replay : a.InReplay) : b.InReplay := by
  cases near with
  | refl => exact replay
  | entered p purpose => exact replay
  | seated | counted => exact replay.elim

theorem Young.inReplay (young : Young a) (busy : a.standing = .busy) : a.InReplay := by
  cases young with
  | starting e => trivial
  | sleeping | spawned => cases busy

/-- Such a task has no worker to wait for, and it counts what it delivers. -/
theorem InReplay.standing (replay : a.InReplay) :
    a.standing = .busy ∨ ∃ n, a.standing = .ended (.count n) := by
  cases a with
  | sleeping | spawned | atWorkers | joining => exact replay.elim
  | finished result =>
    cases result with
    | count n => exact .inr ⟨n, rfl⟩
    | _ => exact replay.elim
  | _ => exact .inl rfl

end Stage

section

variable {s : Service} {p : Pending} {ps : List Pending} {purpose : Purpose} {e : Endpoint}
  {n j : Nat} {held : List (Pending × QueueReason)} {old stage : Stage} {o : SendOutcome} {m : Move}

theorem Tries.inReplay (tries : Tries p purpose held stage) (replay : purpose.isReplay = true) :
    stage.InReplay := by
  cases tries with
  | held reason =>
    cases purpose with
    | replay e rest n => trivial
    | _ => cases replay
  | waits | enters => exact replay

theorem Replays.inReplay (replays : Replays e n ps held stage) : stage.InReplay := by
  cases replays with
  | done => trivial
  | givesUp p rest => rfl
  | tries tries => exact tries.inReplay rfl

theorem Concludes.inReplay (concludes : Concludes o purpose held stage)
    (replay : purpose.isReplay = true) : stage.InReplay := by
  cases concludes with
  | queued reason =>
    cases purpose with
    | replay e rest n => trivial
    | _ => cases replay
  | replays _ replays => exact replays.inReplay
  | sent | discards | handled => cases replay

theorem Leads.inReplay (leads : Leads s old held stage) (replay : old.InReplay) :
    stage.InReplay := by
  cases leads with
  | stays => exact replay
  | replays _ replays => exact replays.inReplay
  | ends concludes | retries concludes | skips _ concludes | holds _ concludes
  | limited concludes => exact concludes.inReplay replay
  | ceiling | posts | accepts | refuses | counts => exact replay
  | _ => exact replay.elim

theorem gets_inReplay (gets : old.Gets s j m stage) (replay : old.InReplay) : stage.InReplay := by
  cases gets with
  | same => exact replay
  | works w =>
    cases w with
    | remove p ending purpose | record p time purpose => exact replay
    | _ => exact replay.elim
  | answers => exact replay
  | fires | hears => exact replay.elim

end

namespace Service

variable {s t : Service} {id j : Nat} {stage old : Stage} {p : Pending} {purpose : Purpose}
  {m : Move}

/-! ## What the functions do to the workers and the tasks -/

theorem getElem?_crew (s : Service) (j : Nat) :
    s.crew.members[j]? = s.tasks[j]?.map Task.member := by
  simp [crew]

theorem standing?_crew (s : Service) (j : Nat) :
    s.crew.standing? j = (s.stage? j).map Stage.standing := by
  simp [Crew.standing?, getElem?_crew, stage?, Function.comp_def, Task.member]

theorem crew_setStage (s : Service) (id : Nat) (stage : Stage) :
    (s.setStage id stage).crew = s.crew.put id stage.standing := by
  have same : (s.setStage id stage).crew.members = (s.crew.put id stage.standing).members := by
    apply List.ext_getElem?
    intro j
    rw [getElem?_crew, Crew.getElem?_put, getElem?_crew, setStage, List.getElem?_modify]
    by_cases self : id = j
    · simp [self, Function.comp_def, Task.member]
    · simp [self, Ne.symm self, Function.comp_def]
  exact congrArg (Crew.mk s.workers) same

/-- A task that is under way and goes on being so. -/
theorem crew_setStage_busy (busy : s.crew.standing? id = some .busy) (stage : Stage)
    (still : stage.standing = .busy) : (s.setStage id stage).crew = s.crew := by
  rw [crew_setStage, still]
  exact Crew.put_of_standing busy

theorem crew_seat (s : Service) (granted : List Nat) (self : Option Nat) :
    (s.seat granted self).crew = s.crew.seat granted := by
  induction granted generalizing s with
  | nil => rfl
  | cons g gs ih =>
    rw [seat, List.foldl_cons, Crew.seat, List.foldl_cons]
    refine (ih _).trans ?_
    congr 1
    rw [standing?_crew]
    split
    case h_1 job at_ =>
      have begun : (s.setStage g (.starting job)).crew = s.crew.put g .busy := crew_setStage s g _
      simp only [at_, Option.map_some, Stage.standing, if_true]
      split
      · exact begun
      · exact begun
    case h_2 other =>
      have apart : (s.stage? g).map Stage.standing ≠ some .queued := by
        intro queued
        obtain ⟨stage, at_, standing⟩ := Option.map_eq_some_iff.mp queued
        cases stage with
        | atWorkers job => exact other job at_
        | _ => cases standing
      rw [if_neg apart]

/-- On the lanes nobody waits for a worker. -/
theorem crew_enter (s : Service) (granted : List Nat) (self : Option Nat) :
    (s.enter granted self).crew = s.crew := by
  induction granted generalizing s with
  | nil => rfl
  | cons g gs ih =>
    rw [enter, List.foldl_cons]
    refine (ih _).trans ?_
    split
    case h_1 p purpose at_ =>
      have busy : s.crew.standing? g = some .busy := by
        rw [standing?_crew, at_]
        rfl
      have same := crew_setStage_busy busy (.onLane p purpose) rfl
      dsimp only
      split
      · exact same
      · exact same
    case h_2 => rfl

theorem crew_leaveLane (s : Service) (id : Nat) (e : Endpoint) :
    (s.leaveLane id e).crew = s.crew := crew_enter _ _ _

theorem crew_notifyParent (s : Service) (parent : Nat) (result : Result) :
    (s.notifyParent parent result).crew = s.crew.tell parent result := by
  unfold notifyParent Crew.tell
  rw [standing?_crew]
  split
  case h_1 left delivered n at_ =>
    have told : (s.setStage parent (.joining (left - 1) (delivered + n))).crew =
        s.crew.put parent (.joins (left - 1)) := crew_setStage s parent _
    simp only [at_, Option.map_some, Stage.standing]
    split
    · exact told
    · exact told
  case h_2 other =>
    split
    case h_1 left n standing =>
      obtain ⟨stage, at_, same⟩ := Option.map_eq_some_iff.mp standing
      cases stage with
      | joining left delivered => exact absurd rfl (other left delivered n at_)
      | _ => cases same
    case h_2 => rfl

theorem crew_finish (s : Service) (id : Nat) (result : Result) :
    (s.finish id result).crew = s.crew.finish id result := by
  unfold finish Crew.finish
  rw [getElem?_crew]
  cases found : s.tasks[id]? with
  | none => rfl
  | some t =>
    have ended : (s.setStage id (.finished result)).crew = s.crew.put id (.ended result) :=
      crew_setStage s id _
    have left_ : (if t.pooled = true then
          ({ s.setStage id (.finished result) with
            workers := ((s.setStage id (.finished result)).workers.leave id).1 } : Service).seat
              ((s.setStage id (.finished result)).workers.leave id).2 none
        else s.setStage id (.finished result)).crew =
        if t.member.pooled = true then (s.crew.put id (.ended result)).leave id
        else s.crew.put id (.ended result) := by
      rw [show t.member.pooled = t.pooled from rfl, ← ended]
      split
      · exact crew_seat _ _ _
      · rfl
    simp only [Option.map_some]
    rw [show t.member.parent = t.parent from rfl]
    cases t.parent with
    | none => exact left_
    | some parent =>
      refine (crew_notifyParent _ parent result).trans ?_
      exact congrArg (Crew.tell · parent result) left_

theorem crew_askWorker (s : Service) (id : Nat) (job : Job) :
    (s.askWorker id job).crew = s.crew.ask id := by
  have placed : (s.setStage id (.atWorkers job)).crew = s.crew.put id .queued :=
    crew_setStage s id _
  refine (crew_seat _ _ _).trans ?_
  unfold Crew.ask Crew.grant
  rw [← placed]
  rfl

theorem crew_addTask (s : Service) (t : Task) :
    (s.addTask t).crew = { s.crew with members := s.crew.members ++ [t.member] } := by
  simp [crew, addTask]

theorem addTask_grown (s : Service) {t : Task} (alone : t.parent = none)
    (fresh : t.member = ⟨true, none, .early⟩ ∨ t.member = ⟨false, none, .busy⟩) :
    s.crew.Grown (s.addTask t).crew := by
  rw [crew_addTask]
  refine ⟨rfl, [t.member], rfl, fun m member => ?_⟩
  rw [List.mem_singleton] at member
  subst member
  exact ⟨alone, fresh⟩

theorem spawnAfter_grown (s : Service) (delay : Nat) (job : Job) :
    s.crew.Grown (s.spawnAfter delay job).crew := by
  unfold spawnAfter
  split
  · exact addTask_grown (s.wake s.tasks.length) rfl (.inl rfl)
  · exact addTask_grown s rfl (.inl rfl)

theorem scheduleReplay_grown (s : Service) (e : Endpoint) (time : Millis) :
    s.crew.Grown (s.scheduleReplay e time).crew := by
  unfold scheduleReplay
  dsimp only
  split
  · exact .refl _
  · exact spawnAfter_grown { s with replays := s.replays.set e (some time) } _ _

theorem hold_grown (s : Service) (p : Pending) (reason : QueueReason) :
    s.crew.Grown (s.hold p reason).crew := by
  unfold hold
  dsimp only
  split
  · exact scheduleReplay_grown s p.endpoint _
  · exact .refl _

theorem replayAll_crew (s : Service) (id : Nat) (es : List Endpoint) :
    (s.replayAll id es).crew = { s.crew with
      members := s.crew.members ++ List.replicate es.length ⟨false, some id, .busy⟩ } := by
  induction es generalizing s with
  | nil => simp [replayAll]
  | cons e es ih =>
    let begun := (s.wake s.tasks.length).addTask ⟨false, some id, .starting (.replay e)⟩
    have first : begun.crew = { s.crew with
        members := s.crew.members ++ [⟨false, some id, .busy⟩] } := crew_addTask _ _
    rw [replayAll, List.foldl_cons]
    refine (ih begun).trans ?_
    rw [first]
    simp [List.replicate_succ]

/-! ## How a task goes on -/

open Crew (GoesOn)

theorem finish_goesOn (s : Service) (id : Nat) (result : Result) :
    GoesOn id s.crew (s.finish id result).crew := by
  rw [crew_finish]
  exact .ends (.refl _) result

theorem setStage_goesOn (busy : s.crew.standing? id = some .busy)
    (still : stage.standing = .busy) : GoesOn id s.crew (s.setStage id stage).crew := by
  rw [crew_setStage_busy busy stage still]
  exact .stays (.refl _)

theorem concludeQueued_goesOn (s : Service) (id : Nat) (reason : QueueReason)
    (purpose : Purpose) : GoesOn id s.crew (s.concludeQueued id reason purpose).crew := by
  cases purpose <;> exact finish_goesOn s id _

theorem attempt_goesOn (busy : s.crew.standing? id = some .busy) (p : Pending)
    (purpose : Purpose) : GoesOn id s.crew (s.attempt id p purpose).crew := by
  unfold attempt
  split
  case h_1 reason _ =>
    exact .after (hold_grown s p reason) (concludeQueued_goesOn _ id reason purpose)
  case h_2 =>
    dsimp only
    rw [crew_enter]
    have waits : GoesOn id s.crew (s.setStage id (.atLane p purpose)).crew :=
      setStage_goesOn busy rfl
    exact waits

theorem drop_goesOn (busy : s.crew.standing? id = some .busy) (p : Pending)
    (reason : DropReason) (onLane : Bool) (purpose : Purpose) :
    GoesOn id s.crew (s.drop id p reason onLane purpose).crew :=
  setStage_goesOn (s := s.report [.drop p reason]) busy rfl

theorem replayNext_goesOn (busy : s.crew.standing? id = some .busy) (e : Endpoint)
    (ps : List Pending) (n : Nat) : GoesOn id s.crew (s.replayNext id e ps n).crew := by
  unfold replayNext
  split
  case h_1 => exact finish_goesOn s id _
  case h_2 p rest =>
    dsimp only
    split
    · exact drop_goesOn busy p _ _ _
    · exact attempt_goesOn busy p _

theorem conclude_goesOn (busy : s.crew.standing? id = some .busy) (outcome : SendOutcome)
    (purpose : Purpose) : GoesOn id s.crew (s.conclude id outcome purpose).crew := by
  unfold conclude
  split
  · exact concludeQueued_goesOn s id _ _
  · exact finish_goesOn s id _
  · split
    · exact setStage_goesOn busy rfl
    · exact finish_goesOn s id _
  · exact replayNext_goesOn busy _ _ _
  · exact replayNext_goesOn busy _ _ _

/-- The lane is given back, and the task goes on. -/
theorem release_goesOn (busy : s.crew.standing? id = some .busy) (grown : s.crew.Grown t.crew)
    (e : Endpoint) (outcome : SendOutcome) (purpose : Purpose) :
    GoesOn id s.crew ((t.leaveLane id e).conclude id outcome purpose).crew := by
  have same := crew_leaveLane t id e
  have still : (t.leaveLane id e).crew.standing? id = some .busy := same ▸ grown.standing? busy
  exact .after (same ▸ grown) (conclude_goesOn still outcome purpose)

theorem send_goesOn (busy : s.crew.standing? id = some .busy) (p : Pending)
    (purpose : Purpose) : GoesOn id s.crew (s.send id p purpose).crew := by
  unfold send
  split
  case h_1 => exact release_goesOn busy (.refl _) _ _ _
  case h_2 current found =>
    split
    case h_1 reason _ => exact release_goesOn busy (hold_grown s current reason) _ _ _
    case h_2 =>
      exact setStage_goesOn
        (s := s.note (.post p.endpoint current.id s.clock current.payload)) busy rfl

theorem handle_goesOn (busy : s.crew.standing? id = some .busy) (p : Pending) (a : Answer)
    (purpose : Purpose) : GoesOn id s.crew (s.handle id p a purpose).crew := by
  cases a with
  | success body etag =>
    exact setStage_goesOn (s := { s with limits := s.limits.clear p.endpoint }) busy rfl
  | tooManyRequests retryAfter =>
    let rejected := s.limits.reject p.endpoint retryAfter s.clock
    have grown : s.crew.Grown _ := scheduleReplay_grown
      (({ s with limits := rejected.1 } : Service).emit (.rateLimited p.endpoint rejected.2))
      p.endpoint rejected.2
    exact release_goesOn busy
      (t := Service.emit _ (.queued p.endpoint p.id .rateLimited)) grown _ _ _
  | payloadTooLarge => exact drop_goesOn busy p _ _ _
  | failure status =>
    unfold handle
    dsimp only
    split
    · exact drop_goesOn busy p _ _ _
    · exact setStage_goesOn busy rfl
  | notModified | incomplete e => exact setStage_goesOn busy rfl

theorem resume_goesOn (busy : s.crew.standing? id = some .busy) (done : Done) :
    GoesOn id s.crew (s.resume id done).crew := by
  cases done with
  | enqueued p => exact attempt_goesOn busy p _
  | persisted e p durable => exact attempt_goesOn busy p _
  | cached | discarded outcome | resurrected n => exact finish_goesOn s id _
  | removed p ending purpose =>
    cases ending with
    | delivered =>
      exact release_goesOn busy (t := s.emit (.delivered p.endpoint p.id)) (.refl _) _ _ _
    | dropped reason onLane =>
      cases onLane with
      | true =>
        exact release_goesOn busy (t := s.emit (.dropped p.endpoint p.id reason)) (.refl _) _ _ _
      | false =>
        exact conclude_goesOn (s := s.emit (.dropped p.endpoint p.id reason)) busy _ _
  | recorded p time purpose =>
    unfold resume
    dsimp only
    split
    · exact drop_goesOn busy p _ _ _
    · exact release_goesOn busy (t := Service.emit _ (.queued p.endpoint p.id .retryScheduled))
        (scheduleReplay_grown s p.endpoint _) _ _ _

theorem fetch_goesOn (busy : s.crew.standing? id = some .busy) (e : Endpoint)
    (etag : Option String) : GoesOn id s.crew (s.fetch id e etag).crew := by
  unfold fetch
  split
  · exact finish_goesOn s id _
  · split
    · exact finish_goesOn s id _
    · exact setStage_goesOn (s := s.note (.get e s.clock etag)) busy rfl

theorem learn_goesOn (s : Service) (id : Nat) (e : Endpoint) (a : Answer) :
    GoesOn id s.crew (s.learn id e a).crew := by
  cases a with
  | success body etag => exact finish_goesOn { s with limits := s.limits.clear e } id _
  | notModified => exact finish_goesOn { s with limits := s.limits.clear e } id _
  | tooManyRequests retryAfter =>
    let rejected := s.limits.reject e retryAfter s.clock
    exact finish_goesOn
      (({ s with limits := rejected.1 } : Service).emit (.rateLimited e rejected.2)) id _
  | payloadTooLarge | failure status | incomplete error => exact finish_goesOn s id _

/-! ## What a move does to the workers and the tasks -/

theorem begin_moves {job : Job} (at_ : s.stage? id = some (.starting job)) :
    s.crew.Moves (s.begin id job).crew := by
  have busy : s.crew.standing? id = some .busy := by
    rw [standing?_crew, at_]
    rfl
  have goes {t : Service} (goes : GoesOn id s.crew t.crew) : s.crew.Moves t.crew :=
    .goes busy (.inl rfl) goes
  cases job with
  | send e payload =>
    unfold begin
    dsimp only
    split
    · exact goes (finish_goesOn
        (s.report [⟨.deliveryDataLoss, e.name ++ " does not accept payloads", none⟩]) id _)
    · exact goes (setStage_goesOn busy rfl)
  | deliver e type =>
    unfold begin
    dsimp only
    split
    · exact goes (setStage_goesOn (s := s.markFinalized e) busy rfl)
    · split
      · exact goes (finish_goesOn s id _)
      · exact goes (setStage_goesOn busy rfl)
  | sendFinal e p durable => exact goes (attempt_goesOn busy p _)
  | flush =>
    unfold begin flush
    generalize (if s.isOffline then [] else s.queue.endpoints) = endpoints
    dsimp only
    split
    · exact goes (finish_goesOn s id _)
    · have forked : ((s.setStage id (.joining endpoints.length 0)).replayAll id endpoints).crew =
          s.crew.fork id endpoints.length := by
        rw [replayAll_crew, crew_setStage]
        rfl
      exact forked ▸ .forks busy endpoints.length
  | replay e => exact goes (replayNext_goesOn busy e _ 0)
  | replayAt e time =>
    unfold begin
    dsimp only
    split
    · exact goes (replayNext_goesOn (s := { s with replays := s.replays.set e none }) busy e _ 0)
    · exact goes (replayNext_goesOn busy e _ 0)
  | fetch e etag => exact goes (fetch_goesOn busy e etag)
  | resurrect => exact goes (setStage_goesOn busy rfl)

theorem advance_moves (s : Service) (id : Nat) : s.crew.Moves (s.advance id).crew := by
  have stays : s.crew.Moves s.crew := .grows (.refl _)
  cases at_ : s.stage? id with
  | none =>
    simp only [advance, at_]
    exact stays
  | some old =>
    have standing : s.crew.standing? id = some old.standing := by
      rw [standing?_crew, at_, Option.map_some]
    simp only [advance, at_]
    cases old with
    | spawned job =>
      dsimp only
      rw [crew_askWorker]
      exact .asks standing
    | starting job => exact begin_moves at_
    | worked done => exact .goes standing (.inl rfl) (resume_goesOn standing done)
    | onLane p purpose => exact .goes standing (.inl rfl) (send_goesOn standing p purpose)
    | answered p a purpose => exact .goes standing (.inl rfl) (handle_goesOn standing p a purpose)
    | told e a => exact .goes standing (.inl rfl) (learn_goesOn s id e a)
    | joining left delivered =>
      cases left with
      | zero => exact .goes standing (.inr rfl) (finish_goesOn s id _)
      | succ left => exact stays
    | _ => exact stays

theorem Aside.crew (aside : Aside s t) : t.crew = s.crew := by
  rw [Service.crew, aside.workers, aside.tasks, Service.crew]

/-- A move that is no step of a task adds tasks at most. -/
theorem step_grown (s : Service) (other : ∀ id, m ≠ .advance id) :
    s.crew.Grown (s.step m).crew := by
  have changes {id : Nat} {old stage : Stage} {t : Service} (same : t.crew = s.crew)
      (at_ : s.stage? id = some old) (still : stage.standing = old.standing) :
      s.crew.Grown (t.setStage id stage).crew := by
    have standing : t.crew.standing? id = some stage.standing := by
      rw [same, standing?_crew, at_, still, Option.map_some]
    rw [crew_setStage, Crew.put_of_standing standing, same]
    exact .refl _
  cases m with
  | advance id => exact absurd rfl (other id)
  | call request =>
    exact addTask_grown { s with ready := s.tasks.length :: s.ready } rfl (.inr rfl)
  | envelope e type =>
    cases type with
    | normalEnd | periodic => exact addTask_grown (s.wake s.tasks.length) rfl (.inl rfl)
    | crash =>
      let persisted := (s.markFinalized e).persistFinal e
      have same : persisted.1.crew = s.crew := (persistFinal_aside (s.markFinalized e) e).crew
      have grown := addTask_grown (persisted.1.wake persisted.1.tasks.length)
        (t := ⟨true, none, .spawned (.sendFinal e persisted.2.1 persisted.2.2)⟩) rfl (.inl rfl)
      exact same ▸ grown
  | network status =>
    unfold step setNetwork
    dsimp only
    split
    · exact addTask_grown (({ s with network := status } : Service).wake _) rfl (.inl rfl)
    · exact .refl _
  | setClock time | elapse span => exact .refl _
  | work id =>
    unfold step work
    dsimp only
    split
    case h_1 w at_ => exact changes (perform_aside s w).crew at_ rfl
    case h_2 => exact .refl _
  | answer id reply =>
    unfold step answer
    dsimp only
    split
    case h_1 p purpose at_ => exact changes rfl at_ rfl
    case h_2 e at_ => exact changes rfl at_ rfl
    case h_3 => exact .refl _
  | fire id =>
    unfold step fire
    dsimp only
    split
    case h_1 time job at_ =>
      split
      · have woken : s.crew.Grown (s.setStage id (.spawned job)).crew := changes rfl at_ rfl
        exact woken
      · exact .refl _
    case h_2 => exact .refl _

theorem step_moves (s : Service) (m : Move) : s.crew.Moves (s.step m).crew := by
  by_cases advance : ∃ id, m = .advance id
  · obtain ⟨id, rfl⟩ := advance
    exact advance_moves s id
  · exact .grows (step_grown s fun id at_ => advance ⟨id, at_⟩)

/-! ## The tasks of a flush -/

/-- A task for which another one waits needs no worker and replays an endpoint. -/
def Minds (s : Service) : Prop :=
  ∀ (j : Nat) (t : Task), s.tasks[j]? = some t → t.parent.isSome →
    t.pooled = false ∧ t.stage.InReplay

theorem Minds.minded (minds : s.Minds) : s.crew.Minded := by
  intro m member child
  obtain ⟨t, inside, rfl⟩ := List.mem_map.mp member
  obtain ⟨j, found⟩ := List.mem_iff_getElem?.mp inside
  obtain ⟨single, replay⟩ := minds j t found child
  exact ⟨single, replay.standing⟩

theorem getElem?_homes_crew (s : Service) (j : Nat) :
    s.crew.homes[j]? = s.tasks[j]?.map fun t => (t.pooled, t.parent) := by
  rw [Crew.getElem?_homes, getElem?_crew, Option.map_map]
  rfl

theorem Minds.step (minds : s.Minds) (m : Move) : (s.step m).Minds := by
  intro j t found child
  have at_ : (s.step m).stage? j = some t.stage := by rw [stage?, found, Option.map_some]
  obtain ⟨new, homes, grows⟩ := (step_moves s m).homes
  have home : (s.crew.homes ++ new)[j]? = some (t.pooled, t.parent) := by
    rw [← homes, getElem?_homes_crew, found, Option.map_some]
  cases before : s.tasks[j]? with
  | some old =>
    have inside : s.crew.homes[j]? = some (old.pooled, old.parent) := by
      rw [getElem?_homes_crew, before, Option.map_some]
    obtain ⟨short, _⟩ := List.getElem?_eq_some_iff.mp inside
    rw [List.getElem?_append_left short, inside, Option.some.injEq, Prod.mk.injEq] at home
    obtain ⟨alone, replay⟩ := minds j old before (home.2 ▸ child)
    obtain ⟨stage, at_', became⟩ := stage_after m
      (show s.stage? j = some old.stage by rw [stage?, before, Option.map_some])
    obtain rfl := Option.some.inj (at_.symm.trans at_')
    refine ⟨home.1 ▸ alone, ?_⟩
    rcases became with near | ⟨_, held, leads⟩ | gets
    · exact near.inReplay replay
    · exact leads.inReplay replay
    · exact gets_inReplay gets replay
  | none =>
    have missing : s.stage? j = none := by rw [stage?, before, Option.map_none]
    have outside : s.crew.homes.length ≤ j := by
      simpa [Crew.homes, crew] using before
    have late : (t.pooled, t.parent) ∈ new := by
      rw [List.getElem?_append_right outside] at home
      exact List.mem_of_getElem? home
    -- of the new tasks another one waits for those of a flush only
    have forked : ∃ id n, (s.step m).crew = s.crew.fork id n := by
      refine grows.resolve_left fun orphans => ?_
      have orphan : t.parent = none := orphans _ late
      rw [orphan] at child
      cases child
    obtain ⟨id, n, forked⟩ := forked
    have member : (s.step m).crew.members[j]? = some t.member := by
      rw [getElem?_crew, found, Option.map_some]
    have absent : s.crew.members[j]? = none := by rw [getElem?_crew, before, Option.map_none]
    obtain ⟨single, _, busy⟩ := Member.mk.inj
      (Crew.getElem?_fork_of_none absent (forked ▸ member))
    refine ⟨single, ?_⟩
    cases stage_from at_ with
    | young young => exact young.inReplay busy
    | new _ newcomer =>
      have other (id : Nat) : m ≠ .advance id := by
        rintro rfl
        cases newcomer
      rcases (step_grown s other).member member with old | fresh | fresh
      · cases absent.symm.trans old
      · rw [show t.parent = none from congrArg Member.parent fresh] at child
        cases child
      · rw [show t.parent = none from congrArg Member.parent fresh] at child
        cases child
    | near at_' | leads _ at_' | gets at_' => cases missing.symm.trans at_'

/-! ## Runs -/

/-- The workers and the tasks are as they should be. -/
structure Crewed (s : Service) : Prop where
  sound : s.crew.Sound
  minds : s.Minds

theorem start_crewed (config : Config) (idOf : Nat → String) (made : Nat) (clock : Millis)
    (pending snapshots : Storage.Store) :
    (start config idOf made clock pending snapshots).Crewed where
  sound := by
    refine ⟨⟨⟨?_, ?_, ?_, ?_, ?_⟩, ?_⟩, ?_⟩
    · exact Nat.le_max_right _ _
    · simp [crew, start, Permits.ofCapacity]
    · simp [crew, start, Permits.ofCapacity, Crew.standing?]
    · simp [crew, start, Permits.ofCapacity]
    · simp [crew, start]
    · simp [crew, start, Permits.ofCapacity]
    · simp [Crew.Tallies, Crew.children, Crew.awaits, Crew.standing?, crew, start]
  minds := by simp [Minds, start]

theorem Crewed.step (crewed : s.Crewed) (m : Move) : (s.step m).Crewed := by
  have minds := crewed.minds.step m
  exact ⟨(step_moves s m).sound crewed.sound minds.minded, minds⟩

theorem Reachable.crewed (reachable : s.Reachable) : s.Crewed := by
  induction reachable with
  | start config idOf made clock pending snapshots => exact start_crewed _ _ _ _ _ _
  | load _ ih => exact ⟨ih.sound, ih.minds⟩
  | move _ m ih => exact ih.step m

/-- No answer of a collector is due, no files are dealt with, and no task can go on by itself. -/
def Stuck (s : Service) : Prop := ∀ t ∈ s.tasks, t.stage.isGoing = false

instance (s : Service) : Decidable s.Stuck := inferInstanceAs (Decidable (∀ _ ∈ _, _))

/-- Whoever holds a lane goes on. -/
theorem going_of_holds {e : Endpoint} (holds : stage.view.position = .holds e) :
    stage.isGoing = true := by
  cases stage with
  | posting | answered | onLane | working | worked => rfl
  | _ => cases holds

/-- If nothing goes on, nobody waits for a lane: somebody would hold it. -/
theorem Reachable.lanes_free (reachable : s.Reachable) (stuck : s.Stuck) (p : Pending)
    (purpose : Purpose) : s.stage? id ≠ some (.atLane p purpose) := by
  intro at_
  have lanes := reachable.inOrder.lanes
  have waits : (s.outline.view id).position = .waits p.endpoint := by
    rw [show s.outline.view id = s.view id from rfl, view_of_stage? at_]
    rfl
  have line : (s.outline.lanes.get p.endpoint).waiting ≠ [] :=
    List.ne_nil_of_mem ((lanes.waits_iff p.endpoint id).mpr waits)
  obtain ⟨j, member⟩ := List.exists_mem_of_ne_nil _ (lanes.taken p.endpoint line)
  have holds : (s.view j).position = .holds p.endpoint := (lanes.holds_iff p.endpoint j).mp member
  cases found : s.tasks[j]? with
  | none =>
    have away : s.view j = .idle [] := by rw [view, stage?, found, Option.map_none]
    rw [away] at holds
    cases holds
  | some t =>
    have at_' : s.stage? j = some t.stage := by rw [stage?, found, Option.map_some]
    rw [view_of_stage? at_'] at holds
    have still := stuck t (List.mem_of_getElem? found)
    rw [going_of_holds holds] at still
    cases still

/-- The service does not come to a deadlock: in every state that can be reached in which no answer
of a collector is due, no files are dealt with and no task can go on, no task waits for a worker or
for a lane, and nothing but timers is left. -/
theorem no_deadlock (reachable : s.Reachable) (stuck : s.Stuck) :
    (∀ t ∈ s.tasks, t.stage.isWaiting = false) ∧ s.OnlyTimers := by
  have crewed := reachable.crewed
  have still {j : Nat} {stage : Stage} (at_ : s.stage? j = some stage) : stage.isGoing = false := by
    obtain ⟨t, found, rfl⟩ := Option.map_eq_some_iff.mp at_
    exact stuck t (List.mem_of_getElem? found)
  have rest (j : Nat) :
      s.crew.standing? j ≠ some .busy ∧ s.crew.standing? j ≠ some (.joins 0) := by
    rw [standing?_crew]
    refine ⟨fun at_ => ?_, fun at_ => ?_⟩
    · obtain ⟨stage, found, busy⟩ := Option.map_eq_some_iff.mp at_
      have still := still found
      cases stage with
      | atLane p purpose => exact reachable.lanes_free stuck p purpose found
      | sleeping | spawned | atWorkers | joining | finished => cases busy
      | _ => cases still
    · obtain ⟨stage, found, joins⟩ := Option.map_eq_some_iff.mp at_
      have still := still found
      cases stage with
      | joining left delivered =>
        cases joins
        cases still
      | _ => cases joins
  have waits := crewed.sound.nobody_waits crewed.minds.minded rest
  have ends (t : Task) (member : t ∈ s.tasks) :
      (t.stage.isSleeping || t.stage.isFinished) = true := by
    obtain ⟨j, found⟩ := List.mem_iff_getElem?.mp member
    have at_ : s.stage? j = some t.stage := by rw [stage?, found, Option.map_some]
    have standing : s.crew.standing? j = some t.stage.standing := by
      rw [standing?_crew, at_, Option.map_some]
    have still := still at_
    cases shape : t.stage with
    | sleeping time job | finished result => rfl
    | atWorkers job =>
      rw [shape] at standing
      exact absurd standing (waits j).1
    | joining left delivered =>
      rw [shape] at standing
      exact absurd standing ((waits j).2 left)
    | atLane p purpose => exact absurd (shape ▸ at_) (reachable.lanes_free stuck p purpose)
    | _ =>
      rw [shape] at still
      cases still
  refine ⟨fun t member => ?_, ends⟩
  have ended := ends t member
  cases shape : t.stage with
  | atWorkers | atLane =>
    rw [shape] at ended
    cases ended
  | _ => rfl

/-- A flush waits for a replay, and that waits for the lane that another task has. In the end only
the timer is left that was set when the first attempt failed. -/
theorem no_deadlock_of_flush :
    let s := (start .default countedIds 0 5 ⟨.absent, 1000⟩ ⟨.absent, 1000⟩).run
      [.network .reachable, .call (.send .logs [7]), .advance 0, .advance 1, .work 1, .advance 1,
        .advance 0, .advance 2, .advance 1, .answer 1 (.ok (.ofStatus 503)), .advance 1, .work 1,
        .advance 1, .advance 2, .answer 2 (.ok (.ofStatus 200)), .advance 2, .work 2, .advance 2,
        .advance 0]
    s.Reachable ∧ s.Stuck ∧ s.tasks.length = 4 ∧
      (∀ t ∈ s.tasks, t.stage.isWaiting = false) ∧ s.OnlyTimers := by
  intro s
  have reachable : s.Reachable := Reachable.run (.start ..) _
  have stuck : s.Stuck := by decide +kernel
  have size : s.tasks.length = 4 := by decide +kernel
  exact ⟨reachable, stuck, size, no_deadlock reachable stuck⟩

end Service

end Outbox
