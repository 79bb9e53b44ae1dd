import Outbox.Proofs.Reports

/-! # What the functions of the service leave alone

For each function of the service, the outline that it leads to and the marks that it adds to the
journal. Most of them change nothing that matters for deliveries.
-/

namespace Outbox

namespace Service

variable {s t u : Service} {o o' : Outline} {added later : List Happening} {id : Nat}

/-- From `s` to `s'` the outline became `o`, and the marks `added` were made. -/
structure Becomes (added : List Happening) (o : Outline) (s s' : Service) : Prop where
  config : s'.config = s.config
  idOf : s'.idOf = s.idOf
  size : s.tasks.length ≤ s'.tasks.length
  journal : ∃ hs, s'.journal = hs ++ s.journal ∧ hs.filter Happening.isMark = added
  outline : s'.outline = o

/-- Nothing changed that matters for deliveries. -/
def Quiet (s s' : Service) : Prop := Becomes [] s.outline s s'

theorem Becomes.trans (first : Becomes added o s t) (second : Becomes later o' t u) :
    Becomes (later ++ added) o' s u where
  config := second.config.trans first.config
  idOf := second.idOf.trans first.idOf
  size := Nat.le_trans first.size second.size
  journal := by
    obtain ⟨hs, shape, marks⟩ := first.journal
    obtain ⟨gs, shape', marks'⟩ := second.journal
    exact ⟨gs ++ hs, by rw [shape', shape, List.append_assoc], by
      rw [List.filter_append, marks, marks']⟩
  outline := second.outline

theorem Quiet.outline (quiet : Quiet s t) : t.outline = s.outline := Becomes.outline quiet

theorem Quiet.refl (s : Service) : Quiet s s :=
  ⟨rfl, rfl, Nat.le_refl _, ⟨[], rfl, rfl⟩, rfl⟩

theorem Quiet.then (quiet : Quiet s t) (next : Becomes added o t u) : Becomes added o s u := by
  have both := Becomes.trans quiet next
  rwa [List.append_nil] at both

theorem Becomes.quiet (first : Becomes added o s t) (quiet : Quiet t u) : Becomes added o s u := by
  have both := first.trans quiet
  rw [first.outline] at both
  exact both

theorem Quiet.trans (first : Quiet s t) (second : Quiet t u) : Quiet s u :=
  Becomes.quiet first second

theorem Quiet.aside (config : t.config = s.config) (idOf : t.idOf = s.idOf)
    (tasks : t.tasks = s.tasks) (journal : t.journal = s.journal) (made : t.made = s.made)
    (queue : t.queue = s.queue) (lanes : t.lanes = s.lanes) : Quiet s t where
  config := config
  idOf := idOf
  size := Nat.le_of_eq (by rw [tasks])
  journal := ⟨[], journal, rfl⟩
  outline := by
    have view : t.view = s.view := by
      funext id
      simp only [Service.view, stage?, tasks]
    rw [Service.outline, Service.outline, made, queue, lanes, view]

theorem withWorkers_quiet (s : Service) (workers : Permits Nat) :
    Quiet s { s with workers } :=
  .aside rfl rfl rfl rfl rfl rfl rfl

theorem withReplays_quiet (s : Service) (replays : PerEndpoint (Option Millis)) :
    Quiet s { s with replays } :=
  .aside rfl rfl rfl rfl rfl rfl rfl

theorem withLimits_quiet (s : Service) (limits : RateLimits) : Quiet s { s with limits } :=
  .aside rfl rfl rfl rfl rfl rfl rfl

theorem withSnapshots_quiet (s : Service) (snapshots : Storage.Store) :
    Quiet s { s with snapshots } :=
  .aside rfl rfl rfl rfl rfl rfl rfl

theorem isSome_stage? : (s.stage? id).isSome ↔ id < s.tasks.length := by
  simp [stage?]

theorem Becomes.isSome (next : Becomes added o s t) (there : (s.stage? id).isSome) :
    (t.stage? id).isSome :=
  isSome_stage?.mpr (Nat.lt_of_lt_of_le (isSome_stage?.mp there) next.size)

/-! ## Small steps -/

theorem note_becomes (s : Service) (h : Happening) :
    Becomes ([h].filter Happening.isMark) s.outline s (s.note h) :=
  ⟨rfl, rfl, Nat.le_refl _, ⟨[h], rfl, rfl⟩, rfl⟩

theorem emit_quiet {e : Event} (plain : (Happening.event e).isMark = false) :
    Quiet s (s.emit e) := by
  have noted := note_becomes s (.event e)
  rwa [List.filter_cons_of_neg (by simp [plain])] at noted

theorem report_quiet {rs : List Report} (plain : ∀ r ∈ rs, r.Plain) : Quiet s (s.report rs) where
  config := rfl
  idOf := rfl
  size := Nat.le_refl _
  journal := by
    refine ⟨(rs.map Happening.report).reverse, rfl, ?_⟩
    rw [List.filter_eq_nil_iff]
    intro h member
    obtain ⟨r, inside, rfl⟩ := List.mem_map.mp (List.mem_reverse.mp member)
    simpa using (Happening.isMark_report r).mpr (plain r inside)
  outline := rfl

theorem setStage_becomes (there : (s.stage? id).isSome) (stage : Stage) :
    Becomes [] (s.outline.put id stage.view) s (s.setStage id stage) where
  config := rfl
  idOf := rfl
  size := by simp [setStage]
  journal := ⟨[], rfl, rfl⟩
  outline := by
    rw [Service.outline, view_setStage there]
    rfl

theorem setStage_quiet {old stage : Stage} (at_ : s.stage? id = some old)
    (same : stage.view = old.view) : Quiet s (s.setStage id stage) where
  config := rfl
  idOf := rfl
  size := by simp [setStage]
  journal := ⟨[], rfl, rfl⟩
  outline := by
    rw [Service.outline, view_setStage_same at_ same]
    rfl

theorem wake_quiet (s : Service) (id : Nat) : Quiet s (s.wake id) :=
  .aside rfl rfl rfl rfl rfl rfl rfl

theorem addTask_becomes (s : Service) (t : Task) :
    Becomes [] (s.outline.put s.tasks.length t.stage.view) s (s.addTask t) where
  config := rfl
  idOf := rfl
  size := by simp [addTask]
  journal := ⟨[], rfl, rfl⟩
  outline := by
    rw [Service.outline, view_addTask]
    rfl

theorem addTask_quiet (s : Service) {t : Task} (nothing : t.stage.view = .idle []) :
    Quiet s (s.addTask t) := by
  have added := addTask_becomes s t
  have same : s.outline.put s.tasks.length t.stage.view = s.outline := by
    rw [nothing, ← view_length s]
    exact congrArg (Outline.mk s.made s.queue s.lanes) (Function.update_eq_self _ s.view)
  rw [same] at added
  exact added

theorem spawn_quiet (s : Service) {job : Job} (nothing : job.pendings = []) :
    Quiet s (s.spawn job) :=
  (wake_quiet s _).trans (addTask_quiet _ (by rw [Stage.view, nothing]))

theorem spawnAfter_quiet (s : Service) (delay : Nat) {job : Job} (nothing : job.pendings = []) :
    Quiet s (s.spawnAfter delay job) := by
  unfold spawnAfter
  split
  · exact spawn_quiet s nothing
  · exact addTask_quiet s (by rw [Stage.view, nothing])

theorem seat_quiet (s : Service) (granted : List Nat) (self : Option Nat) :
    Quiet s (s.seat granted self) := by
  induction granted generalizing s with
  | nil => exact .refl s
  | cons g gs ih =>
    rw [seat, List.foldl_cons]
    refine Quiet.trans ?_ (ih _)
    split
    case h_1 job at_ =>
      have moved : Quiet s (s.setStage g (.starting job)) := setStage_quiet at_ rfl
      split
      · exact moved
      · exact moved.trans (wake_quiet _ g)
    case h_2 => exact .refl s

theorem notifyParent_quiet (s : Service) (parent : Nat) (result : Result) :
    Quiet s (s.notifyParent parent result) := by
  unfold notifyParent
  split
  case h_1 left delivered n at_ =>
    have moved : Quiet s (s.setStage parent (.joining (left - 1) (delivered + n))) :=
      setStage_quiet at_ rfl
    dsimp only
    split
    · exact moved.trans (wake_quiet _ parent)
    · exact moved
  case h_2 => exact .refl s

/-- A task that ends has nothing to do with deliveries any more. -/
theorem finish_becomes (s : Service) (id : Nat) (result : Result) :
    Becomes [] (s.outline.put id (.idle [])) s (s.finish id result) := by
  unfold finish
  split
  case h_1 missing =>
    have none_ : s.view id = .idle [] := by rw [view, stage?, missing, Option.map_none]
    have same : s.outline.put id (.idle []) = s.outline := by
      rw [Outline.put, ← none_]
      exact congrArg (Outline.mk s.made s.queue s.lanes) (Function.update_eq_self id s.view)
    rw [same]
    exact Quiet.refl s
  case h_2 t found =>
    have there : (s.stage? id).isSome := by simp [stage?, found]
    have ended := setStage_becomes there (.finished result)
    have seated : Becomes [] (s.outline.put id (.idle [])) s
        (if t.pooled = true then
          ({ s.setStage id (.finished result) with
            workers := ((s.setStage id (.finished result)).workers.leave id).1 } : Service).seat
              ((s.setStage id (.finished result)).workers.leave id).2 none
        else s.setStage id (.finished result)) := by
      split
      · exact (ended.quiet (withWorkers_quiet _ _)).quiet (seat_quiet _ _ none)
      · exact ended
    dsimp only
    split
    · exact seated.quiet (notifyParent_quiet _ _ result)
    · exact seated

theorem scheduleReplay_quiet (s : Service) (e : Endpoint) (time : Millis) :
    Quiet s (s.scheduleReplay e time) := by
  unfold scheduleReplay
  dsimp only
  split
  · exact .refl s
  · exact (withReplays_quiet s _).trans (spawnAfter_quiet _ _ rfl)

theorem hold_quiet (s : Service) (p : Pending) (reason : QueueReason) :
    Quiet s (s.hold p reason) := by
  unfold hold
  dsimp only
  refine Quiet.trans ?_ (emit_quiet rfl)
  split
  · exact scheduleReplay_quiet s p.endpoint _
  · exact .refl s

/-! ## Lanes -/

theorem enter_has (p : Pending) (phase : Phase) (rest : List Pending) :
    (View.has p phase rest).enter = .has p phase rest := by
  unfold View.has
  split <;> rfl

/-- Only a task in a waiting line can get the lane. -/
theorem enter_view {stage : Stage} (other : ∀ p purpose, stage ≠ .atLane p purpose) :
    stage.view.enter = stage.view := by
  cases stage with
  | atLane p purpose => exact absurd rfl (other p purpose)
  | posting p purpose => exact enter_has p _ _
  | answered p a purpose => exact enter_has p _ _
  | working w =>
    cases w with
    | remove p ending purpose => exact enter_has p _ _
    | record p time purpose => exact enter_has p _ _
    | _ => rfl
  | worked done =>
    cases done with
    | removed p ending purpose => exact enter_has p _ _
    | recorded p time purpose => exact enter_has p _ _
    | _ => rfl
  | _ => rfl

theorem enter_nil (o : Outline) : o.enter [] = o := by
  simp [Outline.enter]

theorem enter_cons (o : Outline) (g : Nat) (gs : List Nat) :
    o.enter (g :: gs) = (o.enter [g]).enter gs := by
  simp only [Outline.enter, Outline.mk.injEq, true_and]
  funext id
  by_cases first : id = g <;> by_cases later : id ∈ gs <;> simp [first, later]

theorem enter_singleton (o : Outline) (g : Nat) : o.enter [g] = o.put g (o.view g).enter := by
  simp only [Outline.enter, Outline.put, Outline.mk.injEq, true_and]
  funext id
  by_cases same : id = g
  · simp [same]
  · simp [same]

theorem enter_becomes (s : Service) (granted : List Nat) (self : Option Nat) :
    Becomes [] (s.outline.enter granted) s (s.enter granted self) := by
  induction granted generalizing s with
  | nil =>
    rw [enter_nil]
    exact Quiet.refl s
  | cons g gs ih =>
    rw [enter, List.foldl_cons, enter_cons, enter_singleton]
    split
    case h_1 p purpose at_ =>
      have view : (s.view g).enter = .holds p purpose.rest := by rw [view_of_stage? at_]; rfl
      have moved : Becomes [] (s.outline.put g (.holds p purpose.rest)) s
          (s.setStage g (.onLane p purpose)) :=
        setStage_becomes (by simp [at_]) (.onLane p purpose)
      have shown : (s.outline.view g).enter = .holds p purpose.rest := view
      rw [shown, ← moved.outline]
      dsimp only
      split
      · exact moved.trans (ih _)
      · have woken := moved.quiet (wake_quiet _ g)
        have next := woken.trans (ih _)
        rw [woken.outline, ← moved.outline] at next
        exact next
    case h_2 other =>
      have view : (s.outline.view g).enter = s.outline.view g := by
        show (s.view g).enter = s.view g
        unfold Service.view
        split
        case h_1 stage found =>
          exact enter_view fun p purpose same => other p purpose (same ▸ found)
        case h_2 => rfl
      have same : s.outline.put g (s.outline.view g).enter = s.outline := by
        rw [view]
        exact congrArg (Outline.mk s.made s.queue s.lanes) (Function.update_eq_self g s.view)
      rw [same]
      exact ih s

theorem leaveLane_becomes (s : Service) (id : Nat) (e : Endpoint) :
    Becomes [] (s.outline.leave id e) s (s.leaveLane id e) := by
  have aside : Becomes [] { s.outline with lanes := s.lanes.set e ((s.lanes.get e).leave id).1 } s
      { s with lanes := s.lanes.set e ((s.lanes.get e).leave id).1 } :=
    ⟨rfl, rfl, Nat.le_refl _, ⟨[], rfl, rfl⟩, rfl⟩
  have entered := aside.trans (enter_becomes _ ((s.lanes.get e).leave id).2 none)
  rw [aside.outline] at entered
  exact entered

/-- Asking for a lane, for a task that is in the waiting line already. -/
theorem request_becomes (s : Service) (id : Nat) (e : Endpoint) (self : Option Nat) :
    Becomes [] (s.outline.request id e) s
      (({ s with lanes := s.lanes.set e ((s.lanes.get e).request id).1 } : Service).enter
        ((s.lanes.get e).request id).2 self) := by
  have aside : Becomes [] { s.outline with lanes := s.lanes.set e ((s.lanes.get e).request id).1 }
      s { s with lanes := s.lanes.set e ((s.lanes.get e).request id).1 } :=
    ⟨rfl, rfl, Nat.le_refl _, ⟨[], rfl, rfl⟩, rfl⟩
  have entered := aside.trans (enter_becomes _ ((s.lanes.get e).request id).2 self)
  rw [aside.outline] at entered
  exact entered

end Service

end Outbox
