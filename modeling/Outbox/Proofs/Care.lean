import Outbox.Proofs.Ledger
import Outbox.Proofs.Minding

/-! # No delivery is stranded

As long as there is a connection, some task deals with each delivery in the queue, or is about to
replay its endpoint. A task that stops early plans a replay, and what is planned is waited for by a
task. So once nothing goes on but timers, every endpoint that has deliveries has a timer.
-/

namespace Outbox

namespace Service

variable {s t : Service} {m : Move} {id j : Nat} {p : Pending} {e : Endpoint} {time : Millis}
  {old stage stage' new : Stage} {purpose : Purpose} {held : List (Pending × QueueReason)}

/-- Some task deals with the delivery. -/
def InCare (s : Service) (p : Pending) : Prop :=
  ∃ j stage, s.stage? j = some stage ∧ stage.CaresFor p

/-- Some task waits to replay the endpoint, as was planned for this time. -/
def Awaited (s : Service) (e : Endpoint) (time : Millis) : Prop :=
  ∃ j stage, s.stage? j = some stage ∧ stage.job? = some (.replayAt e time)

/-- With a connection, all deliveries in the queue are in care, and what is planned is waited
for. -/
structure Caring (s : Service) : Prop where
  order : s.outline.InOrder
  regular : ∀ j stage, s.stage? j = some stage → stage.Regular
  care : s.network ≠ .notReachable → ∀ p, s.queue.Holds p → s.InCare p
  planned : ∀ e time, s.replays.get e = some time → s.Awaited e time

/-- Nobody looks for old snapshots, and when a connection comes back that is noted. -/
def Admits (s : Service) : Move → Prop
  | .call request => request ≠ .resurrect
  | .network status => s.network = .notReachable → status ≠ .unknown
  | _ => True

theorem Awaited.inCare (awaited : s.Awaited p.endpoint time) : s.InCare p := by
  obtain ⟨j, stage, at_, job⟩ := awaited
  have serves : (Job.replayAt p.endpoint time).Serves p.endpoint := rfl
  exact ⟨j, stage, at_, .inr ⟨_, job, serves⟩⟩

theorem AwaitedBut.awaited (awaited : s.AwaitedBut id e time) : s.Awaited e time := by
  obtain ⟨j, _, stage, at_, job⟩ := awaited
  exact ⟨j, stage, at_, job⟩

/-! ## All stages are regular -/

theorem regular_of_cares (regular : old.Regular) (cares : Leads.Cares s old held new) :
    new.Regular := by
  cases cares with
  | same job minds none_ asleep files =>
    refine ⟨fun time job at_ => ?_, job ▸ regular.job, fun at_ => ?_, minds ▸ regular.home⟩
    · exact regular.sleeper time job ((asleep time job at_) ▸ at_)
    · exact regular.files ((files at_) ▸ at_)
  | follows home follows =>
    refine ⟨fun time job at_ => ?_, by simp [follows.job], follows.files,
      fun x member y member' => ?_⟩
    · have idle := follows.job
      rw [at_] at idle
      cases idle
    · obtain ⟨x', there, home'⟩ := follows.minds x member
      obtain ⟨y', there', home''⟩ := follows.minds y member'
      exact home'.symm.trans ((home x' there y' there').trans home'')

theorem gets_regular (gets : stage.Gets s j m stage') (regular : stage.Regular) :
    stage'.Regular := by
  have plain {stage : Stage} (job : stage.job? = none) (files : stage ≠ .working .resurrect)
      (home : OneHome stage.minds) : stage.Regular := by
    refine ⟨?_, by simp [job], files, home⟩
    rintro time job rfl
    cases job
  cases gets with
  | same => exact regular
  | fires time job =>
    refine ⟨?_, regular.job, nofun, regular.home⟩
    rintro time job ⟨⟩
  | works w =>
    cases w with
    | enqueue e payload | persist e => exact plain rfl nofun (oneHome_singleton _)
    | cache e | discard e outcome | resurrect => exact plain rfl nofun oneHome_nil
    | remove p ending purpose =>
      refine plain rfl nofun fun x member y member' => ?_
      exact regular.home x (List.mem_cons_of_mem _ member) y (List.mem_cons_of_mem _ member')
    | record p time purpose =>
      have known {x : Pending} (member : x ∈ p.failed time :: purpose.rest) :
          ∃ y ∈ p :: purpose.rest, y.endpoint = x.endpoint := by
        rcases List.mem_cons.mp member with rfl | later
        · exact ⟨p, List.mem_cons_self, rfl⟩
        · exact ⟨x, List.mem_cons_of_mem _ later, rfl⟩
      refine plain rfl nofun fun x member y member' => ?_
      obtain ⟨x', there, home⟩ := known member
      obtain ⟨y', there', home'⟩ := known member'
      exact home.symm.trans ((regular.home x' there y' there').trans home')
  | answers reply p purpose => exact plain rfl nofun regular.home
  | hears reply e => exact plain rfl nofun oneHome_nil

theorem newcomer_regular (admits : s.Admits m) (new : stage.Newcomer s m) : stage.Regular := by
  cases new with
  | call request =>
    refine ⟨?_, fun same => ?_, nofun, ?_⟩
    · rintro time job ⟨⟩
    · cases request <;> cases same
      exact admits rfl
    · cases request <;> exact oneHome_nil
  | flush status | deliver e type =>
    refine ⟨?_, nofun, nofun, oneHome_nil⟩
    rintro time job ⟨⟩
  | final e durable =>
    refine ⟨?_, nofun, nofun, oneHome_singleton _⟩
    rintro time job ⟨⟩

theorem Caring.regular_step (caring : s.Caring) (admits : s.Admits m) :
    ∀ j stage, (s.step m).stage? j = some stage → stage.Regular := by
  refine stages_step (fun _ => Stage.Young.regular) (fun _ _ => Stage.Near.regular)
    (fun old held new leads regular => ?_) (fun _ => newcomer_regular admits)
    (fun _ _ _ => gets_regular) caring.regular
  have tidy : (s.unplan old).queue.Tidy := (s.unplan_same old).2.1 ▸ caring.order.tidy
  exact regular_of_cares regular (leads.cares tidy regular)

/-! ## A step of a task -/

/-- What is still planned when a planned replay begins is another one. -/
theorem planned_of_unplan (noted : (s.unplan old).replays.get e = some time) :
    s.replays.get e = some time ∧ old ≠ .starting (.replayAt e time) := by
  unfold unplan at noted
  split at noted
  case h_1 f due =>
    split at noted
    case isTrue =>
      rw [PerEndpoint.get_set] at noted
      split at noted
      · cases noted
      case isFalse other =>
        refine ⟨noted, fun same => other ?_⟩
        cases same
        rfl
    case isFalse other =>
      refine ⟨noted, fun same => ?_⟩
      cases same
      exact other noted
  case h_2 other => exact ⟨noted, fun same => other _ _ same⟩

theorem Caring.stillPlanned (caring : s.Caring) (at_ : s.stage? id = some old)
    (turns : Turns id held new (s.unplan old) t) (cares : Leads.Cares (s.unplan old) old held new)
    (noted : (s.unplan old).replays.get e = some time) : t.Awaited e time := by
  obtain ⟨there, pending⟩ := planned_of_unplan noted
  obtain ⟨j, stage, found, job⟩ := caring.planned e time there
  by_cases self : j = id
  · subst self
    obtain rfl := Option.some.inj (at_.symm.trans found)
    cases cares with
    | same job' => exact ⟨j, new, turns.own, job'.trans job⟩
    | follows _ _ begun => exact absurd (begun _ job) pending
  · have found' : (s.unplan old).stage? j = some stage := by
      rw [Service.stage?, (s.unplan_same old).2.2.1]
      exact found
    obtain ⟨stage', at_', near⟩ := turns.others j self stage found'
    exact ⟨j, stage', at_', near.job?.trans job⟩

/-- A delivery that the task itself dealt with stays in care. -/
theorem Caring.stillCared (caring : s.Caring) (online : s.network ≠ .notReachable)
    (at_ : s.stage? id = some old) (turns : Turns id held new (s.unplan old) (s.advance id))
    (cares : Leads.Cares (s.unplan old) old held new) (there : s.queue.Holds p)
    (mine : old.CaresFor p) : (s.advance id).InCare p := by
  have queue := (s.unplan_same old).2.1
  cases cares with
  | same job minds =>
    refine ⟨id, new, turns.own, ?_⟩
    unfold Stage.CaresFor
    rw [job, minds]
    exact mine
  | @follows ps home follows begun all =>
    rw [queue] at all follows
    rcases all p there mine with ⟨y, member, same⟩ | rfl
    case inr =>
      have flushed : s.advance id = s.flush id := by
        simp only [advance, at_, begin]
      have inside : (s.stage? id).isSome := by simp [at_]
      obtain ⟨j, _, started⟩ := flush_starts inside online (List.ne_nil_of_mem there)
      have serves : (Job.replay p.endpoint).Serves p.endpoint := rfl
      exact ⟨j, _, flushed ▸ started, .inr ⟨_, rfl, serves⟩⟩
    case inl =>
      rcases follows.keeps y member ⟨p, there, same.1.symm, same.2.symm⟩ with
        ⟨z, minded, same'⟩ | ⟨h, told, y', member', home'⟩
      · exact ⟨id, new, turns.own, .inl ⟨z, minded, same'.1.trans same.1, same'.2.trans same.2⟩⟩
      · have goal : h.1.endpoint = p.endpoint :=
          home'.symm.trans ((home y' member' y member).trans same.1)
        have reason : h.2 ≠ .offline := fun offline =>
          online ((s.unplan_same old).1 ▸ turns.offline h told offline)
        obtain ⟨time, noted | awaited⟩ := turns.awaits h told reason
        · rw [goal] at noted
          exact (caring.stillPlanned at_ turns (.follows home (queue.symm ▸ follows) begun
            (queue.symm ▸ all)) noted).inCare
        · rw [goal] at awaited
          exact awaited.awaited.inCare

theorem Caring.advance (caring : s.Caring) (id : Nat) : (s.step (.advance id)).Caring := by
  have order := step_inOrder caring.order (.advance id)
  have regular := caring.regular_step (m := .advance id) trivial
  cases at_ : s.stage? id with
  | none =>
    have still : s.step (.advance id) = s := by simp only [step, Service.advance, at_]
    rw [still]
    exact caring
  | some old =>
    obtain ⟨held, new, leads, turns⟩ := advance_advances at_
    obtain ⟨network, queue, tasks, _⟩ := s.unplan_same old
    have stage? (j : Nat) : (s.unplan old).stage? j = s.stage? j := by
      rw [Service.stage?, tasks, Service.stage?]
    have cares := leads.cares (queue.symm ▸ caring.order.tidy) (caring.regular id old at_)
    refine ⟨order, regular, fun online p there => ?_, fun e time noted => ?_⟩
    · have online' : s.network ≠ .notReachable := by
        rw [← network, ← turns.network]
        exact online
      have there' : s.queue.Holds p := by
        rw [← queue]
        exact turns.queue ▸ there
      obtain ⟨j, stage, found, care⟩ := caring.care online' p there'
      by_cases self : j = id
      · subst self
        obtain rfl := Option.some.inj (at_.symm.trans found)
        exact caring.stillCared online' at_ turns cares there' care
      · obtain ⟨stage', at_', near⟩ := turns.others j self stage ((stage? j).trans found)
        exact ⟨j, stage', at_', near.caresFor care⟩
    · rcases turns.plans e time noted with noted | awaited
      · exact caring.stillPlanned at_ turns cares noted
      · exact awaited.awaited

/-! ## The other moves -/

/-- What a task takes out of the queue is not there afterwards. -/
theorem holds_step_remove {ending : Ending} {x : Pending}
    (at_ : s.stage? j = some (.working (.remove p ending purpose)))
    (held : (s.step (.work j)).queue.Holds x) : ¬(x.endpoint = p.endpoint ∧ x.id = p.id) := by
  have removed : (s.step (.work j)).queue = (s.queue.remove p).1 := by
    simp only [step, work, at_]
    rfl
  rw [removed] at held
  exact (Queue.holds_remove.mp held).2

theorem gets_job {job : Job} (gets : stage.Gets s j m stage') (begun : stage.job? = some job) :
    stage'.job? = some job := by
  cases gets with
  | same => exact begun
  | fires time job => exact begun
  | works w => cases begun
  | answers reply p purpose => cases begun
  | hears reply e => cases begun

/-- A task still deals with what is still in the queue. -/
theorem gets_caresFor (gets : stage.Gets s j m stage') (at_ : s.stage? j = some stage)
    (there : (s.step m).queue.Holds p) (cares : stage.CaresFor p) : stage'.CaresFor p := by
  cases gets with
  | same => exact cares
  | fires time job => exact cares
  | works w =>
    obtain ⟨y, member, same⟩ := cares.minded rfl
    cases w with
    | enqueue e payload | persist e | cache e | discard e outcome | resurrect => cases member
    | remove q ending purpose =>
      rcases List.mem_cons.mp member with rfl | later
      · exact absurd ⟨same.1.symm, same.2.symm⟩ (holds_step_remove at_ there)
      · exact .inl ⟨y, later, same⟩
    | record q time purpose =>
      rcases List.mem_cons.mp member with rfl | later
      · exact .inl ⟨y.failed time, List.mem_cons_self, same⟩
      · exact .inl ⟨y, List.mem_cons_of_mem _ later, same⟩
  | answers reply p purpose => exact cares
  | hears reply e =>
    obtain ⟨y, member, _⟩ := cares.minded rfl
    cases member

/-- Whoever puts a new delivery in the queue deals with it. -/
theorem Caring.arrival (caring : s.Caring) (new : p ∈ s.arrivals m) : (s.step m).InCare p := by
  cases m with
  | work i =>
    simp only [arrivals] at new
    split at new
    case h_2 => cases new
    case h_1 w at_ =>
      refine ⟨i, _, stage?_step_work at_, .inl ⟨p, ?_, rfl, rfl⟩⟩
      cases w with
      | enqueue e payload | persist e => exact new
      | cache e | remove q ending purpose | record q time purpose | discard e outcome => cases new
      | resurrect => exact absurd rfl (caring.regular i _ at_).files
  | envelope e type =>
    cases type with
    | normalEnd | periodic => cases new
    | crash =>
      let persisted := (s.markFinalized e).persistFinal e
      refine ⟨persisted.1.tasks.length, .spawned (.sendFinal e persisted.2.1 persisted.2.2), ?_,
        .inl ⟨p, new, rfl, rfl⟩⟩
      exact (stage?_addTask ..).trans (if_pos rfl)
  | _ => cases new

/-- Whoever saves a delivery again deals with it. -/
theorem recount_inCare (again : s.recounts m = some p) : (s.step m).InCare p := by
  obtain ⟨i, q, time, purpose, rfl, at_, rfl⟩ := recounts_eq_some again
  exact ⟨i, _, stage?_step_work at_, .inl ⟨_, List.mem_cons_self, rfl, rfl⟩⟩

/-- When a connection comes back, a flush begins. -/
theorem setNetwork_flushes (changed : s.network ≠ .reachable) :
    ∃ j, (s.setNetwork .reachable).stage? j = some (.spawned .flush) := by
  refine ⟨s.tasks.length, ?_⟩
  have noted : (s.network != .reachable && NetworkStatus.reachable == .reachable) = true := by
    simpa using changed
  simp only [setNetwork, noted, if_true]
  exact (stage?_addTask ..).trans (if_pos rfl)

theorem Caring.pass (caring : s.Caring) (other : ∀ id, m ≠ .advance id) (admits : s.Admits m) :
    (s.step m).Caring := by
  have passes := step_passes s other
  refine ⟨step_inOrder caring.order m, caring.regular_step admits, fun online p there => ?_,
    fun e time noted => ?_⟩
  · rcases holds_step there with before | new | again
    · by_cases offline : s.network = .notReachable
      · by_cases network : ∃ status, m = .network status
        · obtain ⟨status, rfl⟩ := network
          have now : (s.step (.network status)).network = status := by
            unfold step setNetwork
            dsimp only
            split <;> rfl
          rw [now] at online
          have known := admits offline
          cases status with
          | notReachable => exact absurd rfl online
          | unknown => exact absurd rfl known
          | reachable =>
            obtain ⟨j, started⟩ := setNetwork_flushes (s := s) (by simp [offline])
            exact ⟨j, _, started, .inr ⟨_, rfl, trivial⟩⟩
        · have same := passes.network fun status at_ => network ⟨status, at_⟩
          exact absurd (same.trans offline) online
      · obtain ⟨j, stage, at_, cares⟩ := caring.care offline p before
        obtain ⟨stage', at_', gets⟩ := passes.gets j stage at_
        exact ⟨j, stage', at_', gets_caresFor gets at_ there cares⟩
    · exact caring.arrival new
    · exact recount_inCare again
  · rw [passes.replays] at noted
    obtain ⟨j, stage, at_, job⟩ := caring.planned e time noted
    obtain ⟨stage', at_', gets⟩ := passes.gets j stage at_
    exact ⟨j, stage', at_', gets_job gets job⟩

theorem Caring.step (caring : s.Caring) (admits : s.Admits m) : (s.step m).Caring := by
  by_cases advance : ∃ id, m = .advance id
  · obtain ⟨id, rfl⟩ := advance
    exact caring.advance id
  · exact caring.pass (fun id at_ => advance ⟨id, at_⟩) admits

/-! ## Runs -/

theorem start_caring (config : Config) (idOf : Nat → String) (made : Nat) (clock : Millis)
    (pending snapshots : Storage.Store) :
    (start config idOf made clock pending snapshots).Caring where
  order := start_inOrder config idOf made clock pending snapshots
  regular j stage found := by
    simp [stage?, start] at found
  care _ p there := by
    have empty :
        (start config idOf made clock pending snapshots).queue.pending p.endpoint = [] := by
      cases p.endpoint <;> rfl
    rw [Queue.Holds, empty] at there
    cases there
  planned e time noted := by
    have none_ : (start config idOf made clock pending snapshots).replays.get e = none := by
      cases e <;> rfl
    rw [none_] at noted
    cases noted

/-- Each move of the run is admitted where it comes. -/
def AdmitsAll (s : Service) : List Move → Prop
  | [] => True
  | m :: ms => s.Admits m ∧ (s.step m).AdmitsAll ms

theorem Caring.run (caring : s.Caring) {ms : List Move} (admits : s.AdmitsAll ms) :
    (s.run ms).Caring := by
  induction ms generalizing s with
  | nil => exact caring
  | cons m ms ih => exact ih (caring.step admits.1) admits.2

/-- Nothing goes on but timers. -/
def OnlyTimers (s : Service) : Prop :=
  ∀ t ∈ s.tasks, (t.stage.isSleeping || t.stage.isFinished) = true

instance (s : Service) : Decidable s.OnlyTimers := inferInstanceAs (Decidable (∀ _ ∈ _, _))

/-- A service that begins with an empty queue, and is told when a connection comes back, strands no
delivery: every planned replay is waited for, and once nothing goes on but timers, and there is a
connection or none is known to be missing, each endpoint that has deliveries in the queue has a
timer for a replay. -/
theorem no_delivery_stranded (config : Config) (idOf : Nat → String) (made : Nat) (clock : Millis)
    (pending snapshots : Storage.Store) (ms : List Move)
    (admits : (start config idOf made clock pending snapshots).AdmitsAll ms) :
    let t := (start config idOf made clock pending snapshots).run ms
    (∀ e time, t.replays.get e = some time →
      ∃ task ∈ t.tasks, task.stage.job? = some (.replayAt e time)) ∧
    (t.OnlyTimers → t.network ≠ .notReachable → ∀ e, t.queue.pending e ≠ [] →
      ∃ task ∈ t.tasks, ∃ time due, task.stage = .sleeping time (.replayAt e due)) := by
  intro t
  have caring := (start_caring config idOf made clock pending snapshots).run admits
  have member {j : Nat} {stage : Stage} (at_ : t.stage? j = some stage) :
      ∃ task ∈ t.tasks, task.stage = stage := by
    obtain ⟨task, found, same⟩ := Option.map_eq_some_iff.mp at_
    exact ⟨task, List.mem_of_getElem? found, same⟩
  refine ⟨fun e time noted => ?_, fun quiet online e some_ => ?_⟩
  · obtain ⟨j, stage, at_, job⟩ := caring.planned e time noted
    obtain ⟨task, there, rfl⟩ := member at_
    exact ⟨task, there, job⟩
  · obtain ⟨p, held⟩ := List.exists_mem_of_ne_nil _ some_
    obtain ⟨there, rfl⟩ := caring.order.tidy.holds_of_mem held
    obtain ⟨j, stage, at_, cares⟩ := caring.care online p there
    obtain ⟨task, inside, rfl⟩ := member at_
    refine ⟨task, inside, ?_⟩
    have still := quiet task inside
    have regular := caring.regular j _ at_
    cases shape : task.stage with
    | sleeping time job =>
      rw [shape] at cares regular
      obtain ⟨f, due, rfl⟩ := regular.sleeper time job rfl
      obtain ⟨y, none_, _⟩ | ⟨_, found, serves⟩ := cares
      · cases none_
      · cases found
        obtain rfl : f = p.endpoint := serves
        exact ⟨time, due, rfl⟩
    | finished result =>
      rw [shape] at cares
      obtain ⟨y, none_, _⟩ := cares.minded rfl
      cases none_
    | _ =>
      rw [shape] at still
      cases still

/-- An attempt has failed, and its endpoint waits for a replay. -/
theorem no_delivery_stranded_of_failure :
    let s := start .default countedIds 0 5 ⟨.absent, 1000⟩ ⟨.absent, 1000⟩
    let ms := [.call (.send .logs [7]), .advance 0, .work 0, .advance 0, .advance 0,
      .answer 0 (.ok (.ofStatus 503)), .advance 0, .work 0, .advance 0]
    s.AdmitsAll ms ∧ (s.run ms).OnlyTimers ∧ (s.run ms).network ≠ .notReachable ∧
      (s.run ms).queue.pending .logs ≠ [] ∧
      ∃ task ∈ (s.run ms).tasks, ∃ time due, task.stage = .sleeping time (.replayAt .logs due) := by
  intro s ms
  have admits : s.AdmitsAll ms := ⟨nofun, by simp [AdmitsAll, Admits]⟩
  have quiet : (s.run ms).OnlyTimers := by decide +kernel
  have online : (s.run ms).network ≠ .notReachable := by decide +kernel
  have some_ : (s.run ms).queue.pending .logs ≠ [] := by decide +kernel
  have stranded := no_delivery_stranded .default countedIds 0 5 ⟨.absent, 1000⟩ ⟨.absent, 1000⟩
    ms admits
  exact ⟨admits, quiet, online, some_, stranded.2 quiet online .logs some_⟩

end Service

end Outbox
