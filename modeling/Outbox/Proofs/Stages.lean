import Outbox.Proofs.LaneOrder

/-! # What tasks leave alone

A step of a task leaves most of the others alone: they get the worker or the lane that they wait for
at most, and those that are new have yet to begin. It leaves alone the network, the queue and the
snapshots, too. When it leaves a delivery in the queue it tells so, and unless there is no
connection a task waits to replay the endpoint.
-/

namespace Outbox

/-- A delivery is left in the queue. -/
def Happening.isQueued : Happening → Bool
  | event (.queued _ _ _) => true
  | _ => false

/-- What is told when deliveries are left in the queue. -/
def Happening.ofHeld (held : List (Pending × QueueReason)) : List Happening :=
  held.map fun h => .event (.queued h.1.endpoint h.1.id h.2)

namespace Stage

/-- The job of a task that has not begun it. -/
def job? : Stage → Option Job
  | sleeping _ job | spawned job | atWorkers job | starting job => some job
  | _ => none

/-- Where a task stands that is to begin `delay` milliseconds after `now`. Without a delay it can go
on at once. -/
def delayed (now delay : Nat) (job : Job) : Stage :=
  if delay = 0 then spawned job else sleeping (now + delay) job

theorem job?_delayed (now delay : Nat) (job : Job) : (delayed now delay job).job? = some job := by
  unfold delayed
  split <;> rfl

/-- What becomes of the stage of a task while others move. -/
inductive Near : Stage → Stage → Prop where
  | refl (stage : Stage) : Near stage stage
  /-- It gets a worker. -/
  | seated (job : Job) : Near (atWorkers job) (starting job)
  /-- It gets the lane. -/
  | entered (p : Pending) (purpose : Purpose) : Near (atLane p purpose) (onLane p purpose)
  /-- One of the tasks that it waits for has ended. -/
  | counted (left delivered left' delivered' : Nat) :
      Near (joining left delivered) (joining left' delivered')

variable {a b c : Stage}

theorem Near.trans (first : Near a b) (second : Near b c) : Near a c := by
  cases first with
  | refl => exact second
  | seated job =>
    cases second
    exact .seated job
  | entered p purpose =>
    cases second
    exact .entered p purpose
  | counted left delivered =>
    cases second <;> exact .counted ..

theorem Near.job? (near : Near a b) : b.job? = a.job? := by
  cases near <;> rfl

/-- Others do not touch a task that has yet to get a worker. -/
theorem Near.eq_delayed {now delay : Nat} {job : Job} (near : Near (delayed now delay job) b) :
    b = delayed now delay job := by
  by_cases at_once : delay = 0
  · rw [delayed, if_pos at_once] at near ⊢
    cases near
    rfl
  · rw [delayed, if_neg at_once] at near ⊢
    cases near
    rfl

theorem Near.pendings (near : Near a b) : b.view.pendings = a.view.pendings := by
  cases near <;> rfl

/-- The stage of a task that another one starts. -/
inductive Young : Stage → Prop where
  | sleeping (time : Nat) (e : Endpoint) (due : Millis) : Young (sleeping time (.replayAt e due))
  | spawned (e : Endpoint) (due : Millis) : Young (spawned (.replayAt e due))
  | starting (e : Endpoint) : Young (starting (.replay e))

theorem Young.near (young : Young a) (near : Near a b) : Young b := by
  cases young <;> cases near
  · exact .sleeping ..
  · exact .spawned ..
  · exact .starting _

end Stage

namespace Service

variable {s t u : Service} {id j : Nat} {stage stage' : Stage} {p : Pending}
  {held more : List (Pending × QueueReason)}

theorem stage?_addTask (s : Service) (t : Task) (j : Nat) :
    (s.addTask t).stage? j = if j = s.tasks.length then some t.stage else s.stage? j := by
  simp only [stage?, addTask, List.getElem?_append]
  by_cases inside : j < s.tasks.length
  · rw [if_pos inside, if_neg (Nat.ne_of_lt inside)]
  · have missing : s.tasks[j]? = none := List.getElem?_eq_none (Nat.le_of_not_lt inside)
    rw [if_neg inside, missing]
    by_cases last : j = s.tasks.length
    · simp [last]
    · have beyond : j - s.tasks.length ≠ 0 := by omega
      simp [last, beyond]

theorem stage?_length (s : Service) : s.stage? s.tasks.length = none := by
  simp [stage?]

theorem stage?_setStage_self (there : (s.stage? id).isSome) (stage : Stage) :
    (s.setStage id stage).stage? id = some stage := by
  obtain ⟨old, found⟩ := Option.isSome_iff_exists.mp there
  rw [stage?_setStage, if_pos rfl, found]
  rfl

theorem stage?_setStage_of_ne (s : Service) (other : j ≠ id) (stage : Stage) :
    (s.setStage id stage).stage? j = s.stage? j := by
  rw [stage?_setStage, if_neg other]

/-! ## What a step leaves alone -/

/-- From `s` to `t` no stage has changed by itself, and no delivery is left in the queue. -/
structure Kept (s t : Service) : Prop where
  network : t.network = s.network
  queue : t.queue = s.queue
  snapshots : t.snapshots = s.snapshots
  replays : t.replays = s.replays
  size : s.tasks.length ≤ t.tasks.length
  near : ∀ j stage, s.stage? j = some stage → ∃ stage', t.stage? j = some stage' ∧ stage.Near stage'
  young : ∀ j stage, s.stage? j = none → t.stage? j = some stage → stage.Young
  told : ∃ hs, t.journal = hs ++ s.journal ∧ hs.filter Happening.isQueued = []

theorem Kept.same (network : t.network = s.network) (queue : t.queue = s.queue)
    (snapshots : t.snapshots = s.snapshots) (replays : t.replays = s.replays)
    (tasks : t.tasks = s.tasks)
    (told : ∃ hs, t.journal = hs ++ s.journal ∧ hs.filter Happening.isQueued = []) : Kept s t where
  network := network
  queue := queue
  snapshots := snapshots
  replays := replays
  size := Nat.le_of_eq (by rw [tasks])
  near j stage at_ := ⟨stage, by rw [stage?, tasks]; exact at_, .refl stage⟩
  young j stage missing found := by
    rw [stage?, tasks] at found
    cases missing.symm.trans found
  told := told

theorem Kept.refl (s : Service) : Kept s s := .same rfl rfl rfl rfl rfl ⟨[], rfl, rfl⟩

theorem young_trans (near : ∀ j stage, t.stage? j = some stage →
      ∃ stage', u.stage? j = some stage' ∧ stage.Near stage')
    (first : ∀ j stage, s.stage? j = none → t.stage? j = some stage → stage.Young)
    (second : ∀ j stage, t.stage? j = none → u.stage? j = some stage → stage.Young) :
    ∀ j stage, s.stage? j = none → u.stage? j = some stage → stage.Young := by
  intro j stage missing found
  cases between : t.stage? j with
  | none => exact second j stage between found
  | some young =>
    obtain ⟨later, found', moved⟩ := near j young between
    obtain rfl := Option.some.inj (found'.symm.trans found)
    exact (first j young missing between).near moved

theorem Kept.trans (first : Kept s t) (second : Kept t u) : Kept s u where
  network := second.network.trans first.network
  queue := second.queue.trans first.queue
  snapshots := second.snapshots.trans first.snapshots
  replays := second.replays.trans first.replays
  size := Nat.le_trans first.size second.size
  near j stage at_ := by
    obtain ⟨between, at_', moved⟩ := first.near j stage at_
    obtain ⟨last, at_'', moved'⟩ := second.near j between at_'
    exact ⟨last, at_'', moved.trans moved'⟩
  young := young_trans second.near first.young second.young
  told := by
    obtain ⟨hs, shape, quiet⟩ := first.told
    obtain ⟨gs, shape', quiet'⟩ := second.told
    refine ⟨gs ++ hs, by rw [shape', shape, List.append_assoc], ?_⟩
    rw [List.filter_append, quiet, quiet']
    rfl

theorem note_kept (s : Service) {h : Happening} (other : h.isQueued = false) :
    Kept s (s.note h) :=
  .same rfl rfl rfl rfl rfl ⟨[h], rfl, by simp [other]⟩

theorem report_kept (s : Service) (rs : List Report) : Kept s (s.report rs) := by
  refine .same rfl rfl rfl rfl rfl ⟨(rs.map Happening.report).reverse, rfl, ?_⟩
  rw [List.filter_eq_nil_iff]
  intro h member
  obtain ⟨r, _, rfl⟩ := List.mem_map.mp (List.mem_reverse.mp member)
  exact Bool.false_ne_true

theorem wake_kept (s : Service) (id : Nat) : Kept s (s.wake id) :=
  .same rfl rfl rfl rfl rfl ⟨[], rfl, rfl⟩

theorem withLimits_kept (s : Service) (limits : RateLimits) : Kept s { s with limits } :=
  .same rfl rfl rfl rfl rfl ⟨[], rfl, rfl⟩

theorem withWorkers_kept (s : Service) (workers : Permits Nat) : Kept s { s with workers } :=
  .same rfl rfl rfl rfl rfl ⟨[], rfl, rfl⟩

theorem withLanes_kept (s : Service) (lanes : PerEndpoint (Permits Nat)) :
    Kept s { s with lanes } :=
  .same rfl rfl rfl rfl rfl ⟨[], rfl, rfl⟩

theorem addTask_kept (s : Service) {task : Task} (young : task.stage.Young) :
    Kept s (s.addTask task) where
  network := rfl
  queue := rfl
  snapshots := rfl
  replays := rfl
  size := by simp [addTask]
  near j stage at_ := by
    have inside : j ≠ s.tasks.length := by
      rintro rfl
      rw [stage?_length] at at_
      cases at_
    exact ⟨stage, by rw [stage?_addTask, if_neg inside]; exact at_, .refl stage⟩
  young j stage missing found := by
    rw [stage?_addTask] at found
    split at found
    · cases found
      exact young
    · cases missing.symm.trans found
  told := ⟨[], rfl, rfl⟩

/-- The stage of a task comes near to another one. -/
theorem setStage_kept (at_ : s.stage? id = some stage) (near : stage.Near stage') :
    Kept s (s.setStage id stage') where
  network := rfl
  queue := rfl
  snapshots := rfl
  replays := rfl
  size := by simp [setStage]
  near j old found := by
    by_cases self : j = id
    · subst self
      obtain rfl := Option.some.inj (at_.symm.trans found)
      exact ⟨stage', stage?_setStage_self (by simp [at_]) _, near⟩
    · exact ⟨old, by rw [stage?_setStage_of_ne s self]; exact found, .refl old⟩
  young j new missing found := by
    rw [stage?_setStage, missing] at found
    split at found <;> cases found
  told := ⟨[], rfl, rfl⟩

theorem seat_kept (s : Service) (granted : List Nat) (self : Option Nat) :
    Kept s (s.seat granted self) := by
  induction granted generalizing s with
  | nil => exact .refl s
  | cons g gs ih =>
    rw [seat, List.foldl_cons]
    refine Kept.trans ?_ (ih _)
    split
    case h_1 job at_ =>
      have moved := setStage_kept at_ (.seated job)
      split
      · exact moved
      · exact moved.trans (wake_kept _ g)
    case h_2 => exact .refl s

theorem enter_kept (s : Service) (granted : List Nat) (self : Option Nat) :
    Kept s (s.enter granted self) := by
  induction granted generalizing s with
  | nil => exact .refl s
  | cons g gs ih =>
    rw [enter, List.foldl_cons]
    refine Kept.trans ?_ (ih _)
    split
    case h_1 p purpose at_ =>
      have moved := setStage_kept at_ (.entered p purpose)
      split
      · exact moved
      · exact moved.trans (wake_kept _ g)
    case h_2 => exact .refl s

theorem leaveLane_kept (s : Service) (id : Nat) (e : Endpoint) : Kept s (s.leaveLane id e) :=
  (withLanes_kept s _).trans (enter_kept _ _ none)

theorem notifyParent_kept (s : Service) (parent : Nat) (result : Result) :
    Kept s (s.notifyParent parent result) := by
  unfold notifyParent
  split
  case h_1 left delivered n at_ =>
    have moved := setStage_kept at_ (.counted left delivered (left - 1) (delivered + n))
    dsimp only
    split
    · exact moved.trans (wake_kept _ parent)
    · exact moved
  case h_2 => exact .refl s

/-! ## What a step does -/

/-- Another task than `id` waits to replay the endpoint, as was planned for this time. -/
def AwaitedBut (s : Service) (id : Nat) (e : Endpoint) (time : Millis) : Prop :=
  ∃ j ≠ id, ∃ stage, s.stage? j = some stage ∧ stage.job? = some (.replayAt e time)

/-- From `s` to `t` the stages of all tasks but `id` are kept. The deliveries in `held` were left in
the queue, the last one first, and that was told. If that was not for want of a connection then a
replay of the endpoint was planned, or another task waits to replay it. -/
structure Goes (id : Nat) (held : List (Pending × QueueReason)) (s t : Service) : Prop where
  network : t.network = s.network
  queue : t.queue = s.queue
  snapshots : t.snapshots = s.snapshots
  size : s.tasks.length ≤ t.tasks.length
  others : ∀ j ≠ id, ∀ stage, s.stage? j = some stage →
    ∃ stage', t.stage? j = some stage' ∧ stage.Near stage'
  young : ∀ j ≠ id, ∀ stage, s.stage? j = none → t.stage? j = some stage → stage.Young
  told : ∃ hs, t.journal = hs ++ s.journal ∧
    hs.filter Happening.isQueued = Happening.ofHeld held
  offline : ∀ h ∈ held, h.2 = .offline → s.network = .notReachable
  plans : ∀ e time, t.replays.get e = some time →
    s.replays.get e = some time ∨ t.AwaitedBut id e time
  awaits : ∀ h ∈ held, h.2 ≠ .offline →
    ∃ time, s.replays.get h.1.endpoint = some time ∨ t.AwaitedBut id h.1.endpoint time

theorem AwaitedBut.of_others {e : Endpoint} {time : Millis}
    (others : ∀ j ≠ id, ∀ stage, s.stage? j = some stage →
      ∃ stage', t.stage? j = some stage' ∧ stage.Near stage')
    (awaited : s.AwaitedBut id e time) : t.AwaitedBut id e time := by
  obtain ⟨j, other, stage, at_, job⟩ := awaited
  obtain ⟨stage', at_', moved⟩ := others j other stage at_
  exact ⟨j, other, stage', at_', moved.job?.trans job⟩

theorem Goes.trans (first : Goes id held s t) (second : Goes id more t u) :
    Goes id (more ++ held) s u where
  network := second.network.trans first.network
  queue := second.queue.trans first.queue
  snapshots := second.snapshots.trans first.snapshots
  size := Nat.le_trans first.size second.size
  others j other stage at_ := by
    obtain ⟨between, at_', moved⟩ := first.others j other stage at_
    obtain ⟨last, at_'', moved'⟩ := second.others j other between at_'
    exact ⟨last, at_'', moved.trans moved'⟩
  young j other stage missing found := by
    cases between : t.stage? j with
    | none => exact second.young j other stage between found
    | some young =>
      obtain ⟨later, found', moved⟩ := second.others j other young between
      obtain rfl := Option.some.inj (found'.symm.trans found)
      exact (first.young j other young missing between).near moved
  told := by
    obtain ⟨hs, shape, first⟩ := first.told
    obtain ⟨gs, shape', second⟩ := second.told
    refine ⟨gs ++ hs, by rw [shape', shape, List.append_assoc], ?_⟩
    rw [List.filter_append, first, second, Happening.ofHeld, Happening.ofHeld, Happening.ofHeld,
      List.map_append]
  offline h member reason := by
    rcases List.mem_append.mp member with late | early
    · exact first.network ▸ second.offline h late reason
    · exact first.offline h early reason
  plans e time noted := by
    rcases second.plans e time noted with between | awaited
    · exact (first.plans e time between).imp_right (.of_others second.others)
    · exact .inr awaited
  awaits h member reason := by
    rcases List.mem_append.mp member with late | early
    · obtain ⟨time, noted | awaited⟩ := second.awaits h late reason
      · exact ⟨time, (first.plans _ time noted).imp_right (.of_others second.others)⟩
      · exact ⟨time, .inr awaited⟩
    · obtain ⟨time, planned⟩ := first.awaits h early reason
      exact ⟨time, planned.imp_right (.of_others second.others)⟩

theorem Kept.goes (kept : Kept s t) (id : Nat) : Goes id [] s t where
  network := kept.network
  queue := kept.queue
  snapshots := kept.snapshots
  size := kept.size
  others j _ := kept.near j
  young j _ := kept.young j
  told := kept.told
  offline := by simp
  plans e time noted := .inl (kept.replays ▸ noted)
  awaits := by simp

theorem setStage_others (s : Service) (id : Nat) (stage : Stage) : ∀ j ≠ id, ∀ old,
    s.stage? j = some old → ∃ stage', (s.setStage id stage).stage? j = some stage' ∧
      old.Near stage' := by
  intro j other old at_
  exact ⟨old, by rw [stage?_setStage_of_ne s other]; exact at_, .refl old⟩

theorem setStage_goes (s : Service) (id : Nat) (stage : Stage) :
    Goes id [] s (s.setStage id stage) where
  network := rfl
  queue := rfl
  snapshots := rfl
  size := by simp [setStage]
  others := setStage_others s id stage
  young j other new missing found := by
    rw [stage?_setStage_of_ne s other, missing] at found
    cases found
  told := ⟨[], rfl, rfl⟩
  offline := by simp
  plans _ _ noted := .inl noted
  awaits := by simp

/-- From `s` to `t` the task `id` came to this stage. -/
structure Turns (id : Nat) (held : List (Pending × QueueReason)) (stage : Stage) (s t : Service) :
    Prop extends Goes id held s t where
  own : t.stage? id = some stage

theorem Turns.after (first : Goes id held s t) (next : Turns id more stage t u) :
    Turns id (more ++ held) stage s u :=
  ⟨first.trans next.toGoes, next.own⟩

theorem Kept.turn (kept : Kept s t) (next : Turns id held stage t u) : Turns id held stage s u := by
  have both := Turns.after (kept.goes id) next
  rwa [List.append_nil] at both

theorem setStage_turns (there : (s.stage? id).isSome) (stage : Stage) :
    Turns id [] stage s (s.setStage id stage) :=
  ⟨setStage_goes s id stage, stage?_setStage_self there stage⟩

theorem Goes.isSome (goes : Goes id held s t) (there : (s.stage? id).isSome) :
    (t.stage? id).isSome :=
  isSome_stage?.mpr (Nat.lt_of_lt_of_le (isSome_stage?.mp there) goes.size)

theorem Kept.isSome (kept : Kept s t) (there : (s.stage? id).isSome) : (t.stage? id).isSome :=
  (kept.goes id).isSome there

/-- A task that ends has ended, whoever gets its worker. -/
theorem finish_turns (there : (s.stage? id).isSome) (result : Result) :
    Turns id [] (.finished result) s (s.finish id result) := by
  have placed := setStage_turns there (.finished result)
  have still {t : Service} (kept : Kept (s.setStage id (.finished result)) t) :
      Turns id [] (.finished result) s t := by
    refine ⟨placed.toGoes.trans (kept.goes id), ?_⟩
    obtain ⟨last, at_, moved⟩ := kept.near id _ placed.own
    cases moved
    exact at_
  unfold finish
  split
  case h_1 missing =>
    rw [stage?, missing] at there
    cases there
  case h_2 task found =>
    have seated : Kept (s.setStage id (.finished result))
        (if task.pooled = true then
          ({ s.setStage id (.finished result) with
            workers := ((s.setStage id (.finished result)).workers.leave id).1 } : Service).seat
              ((s.setStage id (.finished result)).workers.leave id).2 none
        else s.setStage id (.finished result)) := by
      split
      · exact (withWorkers_kept _ _).trans (seat_kept _ _ none)
      · exact .refl _
    dsimp only
    split
    · exact still (seated.trans (notifyParent_kept _ _ result))
    · exact still seated

/-! ## Planning a replay -/

theorem spawn_kept (s : Service) (e : Endpoint) (due : Millis) :
    Kept s (s.spawn (.replayAt e due)) :=
  (wake_kept s _).trans (addTask_kept _ (.spawned e due))

theorem spawnAfter_kept (s : Service) (delay : Nat) (e : Endpoint) (due : Millis) :
    Kept s (s.spawnAfter delay (.replayAt e due)) := by
  unfold spawnAfter
  split
  · exact spawn_kept s e due
  · exact addTask_kept s (.sleeping _ e due)

/-- The task that was started waits to begin. -/
theorem stage?_spawnAfter (s : Service) (delay : Nat) (job : Job) :
    (s.spawnAfter delay job).stage? s.tasks.length = some (.delayed s.elapsed delay job) := by
  unfold spawnAfter Stage.delayed
  split
  · rw [spawn, stage?_addTask]
    exact if_pos rfl
  · rw [stage?_addTask, if_pos rfl]

/-- Planning a replay leaves the tasks alone. -/
theorem scheduleReplay_goes (s : Service) (e : Endpoint) (time : Millis)
    (there : (s.stage? id).isSome) : Goes id [] s (s.scheduleReplay e time) := by
  unfold scheduleReplay
  dsimp only
  split
  case isTrue => exact (Kept.refl s).goes id
  case isFalse =>
    let noted : Service := { s with replays := s.replays.set e (some time) }
    have kept := spawnAfter_kept noted (time.since s.clock).toNat e time
    have at_ := stage?_spawnAfter noted (time.since s.clock).toNat (.replayAt e time)
    refine ⟨kept.network, kept.queue, kept.snapshots, kept.size, fun j _ => kept.near j,
      fun j _ => kept.young j, kept.told, by simp, fun f due found => ?_, by simp⟩
    rw [kept.replays, PerEndpoint.get_set] at found
    split at found
    case isTrue same =>
      obtain rfl := same
      cases found
      exact .inr ⟨s.tasks.length, Nat.ne_of_gt (isSome_stage?.mp there), _, at_,
        Stage.job?_delayed _ _ _⟩
    case isFalse => exact .inl found

/-- Once a replay of an endpoint was planned, one is noted. -/
theorem scheduleReplay_notes (s : Service) (e : Endpoint) (time : Millis) :
    ∃ due, (s.scheduleReplay e time).replays.get e = some due := by
  unfold scheduleReplay
  dsimp only
  split
  case isTrue covered =>
    obtain ⟨earlier, noted, _⟩ := (Option.any_eq_true ..).mp covered
    exact ⟨earlier, noted⟩
  case isFalse =>
    have kept := spawnAfter_kept { s with replays := s.replays.set e (some time) }
      (time.since s.clock).toNat e time
    exact ⟨time, by rw [kept.replays, PerEndpoint.get_set_self]⟩

/-- A delivery is left in the queue, and a replay of its endpoint is planned. -/
theorem scheduleReplay_held (s : Service) (p : Pending) (time : Millis) (reason : QueueReason)
    (other : reason ≠ .offline) (there : (s.stage? id).isSome) :
    Goes id [(p, reason)] s
      ((s.scheduleReplay p.endpoint time).emit (.queued p.endpoint p.id reason)) :=
  have planned := scheduleReplay_goes s p.endpoint time there
  { network := planned.network
    queue := planned.queue
    snapshots := planned.snapshots
    size := planned.size
    others := planned.others
    young := planned.young
    plans := planned.plans
    told := by
      obtain ⟨hs, shape, quiet⟩ := planned.told
      refine ⟨.event (.queued p.endpoint p.id reason) :: hs, congrArg _ shape, ?_⟩
      rw [List.filter_cons_of_pos (by rfl), quiet]
      rfl
    offline := fun h member same => by
      rw [List.mem_singleton.mp member] at same
      exact absurd same other
    awaits := fun h member _ => by
      rw [List.mem_singleton.mp member]
      obtain ⟨due, noted⟩ := scheduleReplay_notes s p.endpoint time
      exact ⟨due, planned.plans _ due noted⟩ }

/-- A delivery that is not sent now is left in the queue. -/
theorem hold_goes (s : Service) {p : Pending} {reason : QueueReason}
    (suppressed : s.suppression? p = some reason) (there : (s.stage? id).isSome) :
    Goes id [(p, reason)] s (s.hold p reason) := by
  unfold suppression? at suppressed
  split at suppressed
  case isTrue offline =>
    cases suppressed
    have kept := Kept.refl s
    exact
      { kept.goes id with
        told := ⟨[.event (.queued p.endpoint p.id .offline)], rfl, rfl⟩
        offline := fun _ _ _ => beq_iff_eq.mp offline
        awaits := by simp }
  case isFalse =>
    split at suppressed <;> cases suppressed
    case isTrue limited =>
      obtain ⟨time, until_⟩ := Option.isSome_iff_exists.mp limited
      have planned := scheduleReplay_held s p time .rateLimited nofun there
      simp only [hold, until_]
      exact planned

/-! ## Dealing with files -/

/-- From `s` to `t` only files and what was reported have changed. -/
structure Aside (s t : Service) : Prop where
  network : t.network = s.network
  replays : t.replays = s.replays
  tasks : t.tasks = s.tasks
  workers : t.workers = s.workers
  told : ∃ hs, t.journal = hs ++ s.journal ∧ hs.filter Happening.isQueued = []

theorem Aside.refl (s : Service) : Aside s s := ⟨rfl, rfl, rfl, rfl, [], rfl, rfl⟩

theorem Aside.trans (first : Aside s t) (second : Aside t u) : Aside s u where
  network := second.network.trans first.network
  replays := second.replays.trans first.replays
  tasks := second.tasks.trans first.tasks
  workers := second.workers.trans first.workers
  told := by
    obtain ⟨hs, shape, quiet⟩ := first.told
    obtain ⟨gs, shape', quiet'⟩ := second.told
    refine ⟨gs ++ hs, by rw [shape', shape, List.append_assoc], ?_⟩
    rw [List.filter_append, quiet, quiet']
    rfl

theorem report_aside (s : Service) (rs : List Report) : Aside s (s.report rs) :=
  ⟨rfl, rfl, rfl, rfl, (report_kept s rs).told⟩

theorem withQueue_aside (s : Service) (queue : Queue) : Aside s { s with queue } :=
  ⟨rfl, rfl, rfl, rfl, [], rfl, rfl⟩

theorem withSnapshots_aside (s : Service) (snapshots : Storage.Store) :
    Aside s { s with snapshots } :=
  ⟨rfl, rfl, rfl, rfl, [], rfl, rfl⟩

theorem enqueue_aside (s : Service) (e : Endpoint) (payload : Bytes) :
    Aside s (s.enqueue e payload).1 :=
  ⟨rfl, rfl, rfl, rfl, (report_aside s _).told⟩

theorem snapshotKey?_aside (s : Service) (e : Envelope) : Aside s (s.snapshotKey? e).1 := by
  unfold snapshotKey?
  split
  · exact .refl s
  · exact report_aside s _

theorem storeSnapshot_aside (s : Service) (e : Envelope) : Aside s (s.storeSnapshot e).1 := by
  have keyed := snapshotKey?_aside s e
  unfold storeSnapshot
  split
  case h_1 t none_ =>
    rw [none_] at keyed
    exact keyed
  case h_2 t key some_ =>
    rw [some_] at keyed
    exact (keyed.trans (withSnapshots_aside t _)).trans (report_aside _ _)

theorem deleteSnapshot_aside (s : Service) (e : Envelope) : Aside s (s.deleteSnapshot e) := by
  have keyed := snapshotKey?_aside s e
  unfold deleteSnapshot
  split
  case h_1 t none_ =>
    rw [none_] at keyed
    exact keyed
  case h_2 t key some_ =>
    rw [some_] at keyed
    exact (keyed.trans (withSnapshots_aside t _)).trans (report_aside _ _)

theorem writeSnapshot_aside (s : Service) (e : Envelope) : Aside s (s.writeSnapshot e) := by
  have stored := storeSnapshot_aside s e
  unfold writeSnapshot
  split
  case h_1 t done =>
    rw [done] at stored
    split
    · exact stored.trans (deleteSnapshot_aside t e)
    · exact stored
  case h_2 t failed =>
    rw [failed] at stored
    exact stored

theorem persistFinal_aside (s : Service) (e : Envelope) : Aside s (s.persistFinal e).1 := by
  have enqueued := enqueue_aside s e.endpoint e.body
  unfold persistFinal
  dsimp only
  split
  · exact enqueued.trans (deleteSnapshot_aside _ e)
  · exact enqueued.trans (storeSnapshot_aside _ e)

theorem requeue_aside (s : Service) (keys : List Storage.Key) : Aside s (s.requeue keys).1 := by
  induction keys generalizing s with
  | nil => exact .refl s
  | cons key keys ih =>
    have dropped (t : Service) : Aside t
        (({ t with snapshots := (t.snapshots.delete key).1 } : Service).report
          (t.snapshots.delete key).2) :=
      (withSnapshots_aside t _).trans (report_aside _ _)
    have loaded := report_aside s (s.snapshots.loadBytes key).1
    simp only [requeue]
    split
    · exact ih s
    · split
      · exact loaded.trans (ih _)
      · exact ((loaded.trans (report_aside _ _)).trans (dropped _)).trans (ih _)
      · split
        · exact ((loaded.trans (report_aside _ _)).trans (dropped _)).trans (ih _)
        · rename_i e _
          have enqueued := loaded.trans (enqueue_aside _ e.endpoint e.body)
          split
          · exact (enqueued.trans (dropped _)).trans (ih _)
          · exact enqueued.trans (ih _)

theorem perform_aside (s : Service) (w : Work) : Aside s (s.perform w).1 := by
  cases w with
  | enqueue e payload => exact enqueue_aside s e payload
  | persist e => exact persistFinal_aside s e
  | cache e => exact writeSnapshot_aside s e
  | remove p ending purpose => exact (withQueue_aside s _).trans (report_aside _ _)
  | record p time purpose => exact (withQueue_aside s _).trans (report_aside _ _)
  | discard e outcome => exact deleteSnapshot_aside s e
  | resurrect => exact (report_aside s _).trans (requeue_aside _ _)

end Service

end Outbox
