import Mathlib
import Outbox.Proofs.NoDeadlock
import Outbox.Proofs.SoloReplay

/-! # Endpoints do not influence each other

The replays of a flush share the queue, its store, the rate limits and the tasks. Still each of them
keeps to the course that it has alone, in whatever order they move. So what becomes of an endpoint
in a flush depends on what there is for that endpoint only.
-/

namespace Outbox

namespace Course

variable {c : Course} {e : Endpoint} {ns ms : List Happening}

/-- The course as far as it tells of an endpoint. -/
def about (e : Endpoint) (c : Course) : Course :=
  { c with news := c.news.filter fun h => h.endpoint? = some e }

/-- What has nothing to do with the endpoint makes no difference. -/
theorem about_tell_append (apart : ∀ h ∈ ms, h.endpoint? ≠ some e) :
    (c.tell (ns ++ ms)).about e = (c.tell ns).about e := by
  have none_ : (ms.filter fun h => h.endpoint? = some e) = [] := by
    simpa [List.filter_eq_nil_iff] using apart
  simp [about, tell, none_]

end Course

namespace Service

open Relation (ReflTransGen)

variable {s t u : Service} {e : Endpoint} {f i j : Nat} {k : Setting} {c : Course} {l : Lot}
  {script script' script'' : Script} {stage : Stage} {replies : List PostResult}
  {ns : List Happening} {es : List Endpoint} {due : Endpoint → Nat} {last : Nat}

/-! ## The tasks of a flush -/

/-- The task that waits for another one. -/
def parent? (s : Service) (j : Nat) : Option Nat := s.tasks[j]?.bind (·.parent)

/-- The task is the one of the flush `f`, or the flush waits for it. -/
def InFlush (f : Nat) (s : Service) (j : Nat) : Prop := j = f ∨ s.parent? j = some f

theorem parent?_eq_homes (s : Service) (j : Nat) :
    s.parent? j = s.crew.homes[j]?.bind (·.2) := by
  rw [getElem?_homes_crew, parent?]
  cases s.tasks[j]? <;> rfl

/-- Only tasks that nobody waits for are new. -/
theorem parent?_of_homes {new : List (Bool × Option Nat)}
    (shape : t.crew.homes = s.crew.homes ++ new) (orphans : ∀ h ∈ new, h.2 = none) (j : Nat) :
    t.parent? j = s.parent? j := by
  rw [parent?_eq_homes, parent?_eq_homes, shape, List.getElem?_append]
  split
  · rfl
  case isFalse beyond =>
    have missing : s.crew.homes[j]? = none := List.getElem?_eq_none (Nat.le_of_not_lt beyond)
    rw [missing]
    cases found : new[j - s.crew.homes.length]? with
    | none => rfl
    | some h => exact orphans h (List.mem_of_getElem? found)

theorem parent?_of_goesOn (goes : Crew.GoesOn i s.crew t.crew) (j : Nat) :
    t.parent? j = s.parent? j := by
  obtain ⟨new, shape, orphans⟩ := goes.homes
  exact parent?_of_homes shape orphans j

theorem parent?_of_grown (grown : s.crew.Grown t.crew) (j : Nat) : t.parent? j = s.parent? j := by
  obtain ⟨new, shape, orphans⟩ := grown.homes
  exact parent?_of_homes shape orphans j

/-- A replay starts no tasks that another one waits for. -/
theorem Plays.parent? (plays : Plays (fun _ i => i = j) (s, script) (t, script'))
    (at_ : s.stage? j = some stage) (heads : Heads k e j stage l replies c) (i : Nat) :
    t.parent? i = s.parent? i := by
  cases plays with
  | @advance _ _ j _ own at_' runnable =>
    obtain rfl := own
    obtain rfl := Option.some.inj (at_.symm.trans at_')
    refine parent?_of_goesOn (i := j) ?_ i
    have standing := (standing?_crew s j).trans (congrArg (Option.map Stage.standing) at_)
    simp only [step, Service.advance, at_]
    cases heads with
    | starting => exact replayNext_goesOn standing _ _ _
    | onLane => exact send_goesOn standing _ _
    | answered => exact handle_goesOn standing _ _ _
    | delivered | dropped | recorded => exact resume_goesOn standing _
    | posting | accepted | givenUp | recording | finished => cases runnable
  | @work _ _ j => exact parent?_of_grown (step_grown (m := .work j) s (by simp)) i
  | @answer _ _ j _ _ reply =>
    exact parent?_of_grown (step_grown (m := .answer j reply) s (by simp)) i

/-! ## The beginning of a flush -/

/-- A flush is about to begin, and no other replay is under way. -/
structure BeginsFlush (f : Nat) (s : Service) : Prop where
  begins : s.stage? f = some (.starting .flush)
  alone : ∀ j, s.parent? j ≠ some f
  free : ∀ e, s.lanes.get e = .ofCapacity 1
  inStep : s.queue.InStep

/-- The endpoints that a flush visits. -/
def flushed (s : Service) : List Endpoint := if s.isOffline then [] else s.queue.endpoints

theorem flushed_nodup (s : Service) : s.flushed.Nodup := by
  unfold flushed
  split
  · exact List.nodup_nil
  · exact List.Nodup.filter _ (by decide)

theorem tasks_replayAll (s : Service) (f : Nat) (es : List Endpoint) :
    (s.replayAll f es).tasks =
      s.tasks ++ es.map fun e => ⟨false, some f, .starting (.replay e)⟩ := by
  induction es generalizing s with
  | nil => simp [replayAll]
  | cons e es ih =>
    rw [replayAll, List.foldl_cons]
    refine (ih _).trans ?_
    simp [addTask, wake]

theorem bare_replayAll (s : Service) (f : Nat) (es : List Endpoint) :
    (s.replayAll f es).bare = s.bare := by
  induction es generalizing s with
  | nil => rfl
  | cons e es ih => exact ih _

/-- The task that a flush starts for an endpoint, if `b` is the number of the first one. -/
def Child (es : List Endpoint) (b j : Nat) (e : Endpoint) : Prop := b ≤ j ∧ es[j - b]? = some e

theorem stage?_replayAll (inside : j < s.tasks.length) (es : List Endpoint) :
    (s.replayAll f es).stage? j = s.stage? j := by
  rw [stage?, tasks_replayAll, List.getElem?_append_left inside, stage?]

theorem stage?_child (child : Child es s.tasks.length j e) :
    (s.replayAll f es).stage? j = some (.starting (.replay e)) := by
  rw [stage?, tasks_replayAll, List.getElem?_append_right child.1, List.getElem?_map, child.2]
  rfl

/-- The flush waits for the tasks that it starts. -/
theorem parent?_replayAll (alone : s.parent? j ≠ some f) :
    (s.replayAll f es).parent? j = some f ↔ ∃ e, Child es s.tasks.length j e := by
  rw [parent?, tasks_replayAll]
  by_cases inside : j < s.tasks.length
  case pos =>
    rw [List.getElem?_append_left inside]
    refine ⟨fun own => absurd own alone, ?_⟩
    rintro ⟨e, child⟩
    exact absurd inside (Nat.not_lt.mpr child.1)
  case neg =>
    have beyond := Nat.le_of_not_lt inside
    rw [List.getElem?_append_right beyond, List.getElem?_map]
    cases found : es[j - s.tasks.length]? with
    | none =>
      constructor
      · intro own
        cases own
      · rintro ⟨e, child⟩
        cases found.symm.trans child.2
    | some e => exact ⟨fun _ => ⟨e, beyond, found⟩, fun _ => rfl⟩

@[simp]
theorem parent?_setStage (s : Service) (i : Nat) (stage : Stage) (j : Nat) :
    (s.setStage i stage).parent? j = s.parent? j := by
  simp only [parent?, setStage, List.getElem?_modify]
  cases s.tasks[j]? with
  | none => rfl
  | some task => by_cases self : i = j <;> simp [self]

theorem Child.endpoint_eq {b : Nat} {e' : Endpoint} (child : Child es b j e)
    (child' : Child es b j e') : e = e' :=
  Option.some.inj (child.2.symm.trans child'.2)

theorem Child.task_eq {b : Nat} (nodup : es.Nodup) (child : Child es b i e)
    (child' : Child es b j e) : i = j := by
  obtain ⟨low, at_⟩ := child
  obtain ⟨low', at_'⟩ := child'
  obtain ⟨inside, -⟩ := List.getElem?_eq_some_iff.mp at_
  have same := (List.getElem?_inj inside nodup).mp (at_.trans at_'.symm)
  omega

/-! ## A flush under way -/

/-- The course that a replay of an endpoint has alone, by what the service knows. -/
def replayCourse (s : Service) (e : Endpoint) (replies : List PostResult) : Course :=
  s.setting.replay e (s.replays.get e) (s.queue.pending e) (s.limits.states.get e) replies

/-- The task `j` replays the endpoint `e`. Together with what has happened since `s` its course is
the one that the endpoint has alone, as far as it tells of that endpoint. At most `m` steps are
ahead. -/
def OnTrack (s : Service) (script : Script) (e : Endpoint) (j : Nat) (ns : List Happening) (m : Nat)
    (t : Service) (script' : Script) : Prop :=
  ∃ stage later, t.stage? j = some stage ∧
    Heads s.setting e j stage (t.lot e) (script'.get e) later ∧
    (s.replayCourse e (script.get e)).about e = (later.tell ns).about e ∧
    8 * (t.lot e).entries.length + stage.rank ≤ m

/-- The task itself makes a step. -/
theorem OnTrack.step {m : Nat} (track : OnTrack s script e j ns m t script')
    (smooth : Smooth s.setting t) (plays : Plays (fun _ i => i = j) (t, script') (u, script'')) :
    ∃ ms l m', m' < m ∧ Deal e ms l t u ∧ OnTrack s script e j (ns ++ ms) m' u script'' ∧
      (∀ f ≠ e, script''.get f = script'.get f) ∧ ∀ i, u.parent? i = t.parent? i := by
  obtain ⟨stage, later, at_, heads, agrees, few⟩ := track
  have parents := plays.parent? at_ heads
  obtain ⟨⟨ms, later', stage', l, deal, at_', heads', rfl, less⟩, others⟩ :=
    plays.proceeds smooth at_ heads
  refine ⟨ms, l, _, Nat.lt_of_lt_of_le less few, deal, ?_, others, parents⟩
  refine ⟨stage', later', at_', deal.lot.symm ▸ heads', ?_, deal.lot.symm ▸ Nat.le_refl _⟩
  rw [agrees, Course.tell_tell]

/-- Another task makes a step that has nothing to do with the endpoint. -/
theorem OnTrack.aside {m : Nat} {ms : List Happening}
    (track : OnTrack s script e j ns m t script')
    (near : ∀ old, t.stage? j = some old → ∃ stage, u.stage? j = some stage ∧ old.Near stage)
    (lot : u.lot e = t.lot e) (replies : script''.get e = script'.get e)
    (apart : ∀ h ∈ ms, h.endpoint? ≠ some e) :
    OnTrack s script e j (ns ++ ms) m u script'' := by
  obtain ⟨stage, later, at_, heads, agrees, few⟩ := track
  obtain ⟨stage', at_', moved⟩ := near stage at_
  rw [heads.near moved] at at_'
  rw [← lot] at heads few
  rw [← replies] at heads
  refine ⟨stage, later, at_', heads, ?_, few⟩
  rw [agrees, Course.about_tell_append apart]

/-- The stage of the task of a flush that has started its replays; at most `last` steps are
ahead. -/
inductive Begun (last : Nat) : Stage → Prop where
  | joining (left n : Nat) (more : 0 < last) : Begun last (.joining left n)
  | finished (result : Result) : Begun last (.finished result)

theorem Begun.near {stage' : Stage} (begun : Begun last stage) (near : stage.Near stage') :
    Begun last stage' := by
  cases begun with
  | joining left_ n more =>
    cases near with
    | refl => exact .joining left_ n more
    | counted _ _ left_' n' => exact .joining left_' n' more
  | finished result =>
    cases near
    exact .finished result

/-- The flush `f` has come from `s` to `t`, and this is what has happened. Each replay is on its
course, and the tasks of the other endpoints made no difference. Of the steps of each replay at most
`due` are still ahead, and at most `last` of the flush itself. -/
structure Underway (f : Nat) (es : List Endpoint) (s : Service) (script : Script) (t : Service)
    (script' : Script) (ns : List Happening) (due : Endpoint → Nat) (last : Nat) : Prop where
  smooth : es ≠ [] → Smooth s.setting t
  journal : t.journal = ns.reverse ++ s.journal
  begun : ∃ stage, t.stage? f = some stage ∧ Begun last stage
  older : f < s.tasks.length
  parents : ∀ j, t.parent? j = some f ↔ ∃ e, Child es s.tasks.length j e
  busy : ∀ j e, Child es s.tasks.length j e → OnTrack s script e j ns (due e) t script'
  idle : ∀ e ∉ es, t.lot e = s.lot e ∧ ∀ h ∈ ns, h.endpoint? ≠ some e

theorem Underway.ne (underway : Underway f es s script t script' ns due last)
    (child : Child es s.tasks.length j e) : j ≠ f :=
  Nat.ne_of_gt (Nat.lt_of_lt_of_le underway.older child.1)

/-- The flush ends. -/
theorem Underway.ends (underway : Underway f es s script t script' ns due last)
    (result : Result) : Underway f es s script (t.finish f result) script' ns due 0 := by
  have bare := bare_finish t f result
  have same (e : Endpoint) : (t.finish f result).lot e = t.lot e :=
    (congrArg (Service.lot · e) bare :)
  obtain ⟨stage, at_, -⟩ := underway.begun
  have turns := finish_turns (Option.isSome_iff_exists.mpr ⟨stage, at_⟩) result
  exact
    { smooth := fun some_ => (underway.smooth some_).deal (.of_bare bare .config)
      journal := (congrArg Service.journal bare :).trans underway.journal
      begun := ⟨_, turns.own, .finished result⟩
      older := underway.older
      parents := fun j => by
        rw [parent?_of_goesOn (finish_goesOn t f result) j]
        exact underway.parents j
      busy := fun j e child => by
        have silent : ∀ h ∈ ([] : List Happening), h.endpoint? ≠ some e := by simp
        have still := (underway.busy j e child).aside (turns.others j (underway.ne child))
          (same e) rfl silent
        rwa [List.append_nil] at still
      idle := fun e out => by
        rw [same]
        exact underway.idle e out }

theorem sum_update_lt {m : Nat} (member : e ∈ es) (less : m < due e) :
    (es.map (Function.update due e m)).sum < (es.map due).sum := by
  have own : Function.update due e m e < due e := by
    rwa [Function.update_self]
  refine List.sum_lt_sum _ due (fun e' _ => ?_) ⟨e, member, own⟩
  by_cases self : e' = e
  · obtain rfl := self
    exact Nat.le_of_lt own
  · exact Nat.le_of_eq (Function.update_of_ne self _ _)

/-- One of the replays makes a step. -/
theorem Underway.replays (underway : Underway f es s script t script' ns due last)
    (nodup : es.Nodup) (child : Child es s.tasks.length j e)
    (plays : Plays (fun _ i => i = j) (t, script') (u, script'')) :
    ∃ ns' due', Underway f es s script u script'' ns' due' last ∧
      (es.map due').sum < (es.map due).sum := by
  have member : e ∈ es := List.mem_of_getElem? child.2
  have smooth := underway.smooth (List.ne_nil_of_mem member)
  obtain ⟨ms, l, m, less, deal, track, others, parents⟩ :=
    (underway.busy j e child).step smooth plays
  have apart {e' : Endpoint} (other : e' ≠ e) : ∀ h ∈ ms, h.endpoint? ≠ some e' :=
    fun h told same => other (deal.own h told e' same)
  refine ⟨ns ++ ms, Function.update due e m, ?_, sum_update_lt member less⟩
  exact
    { smooth := fun _ => smooth.deal deal
      journal := by rw [deal.journal, underway.journal, List.reverse_append, List.append_assoc]
      begun := by
        obtain ⟨old, found, begun⟩ := underway.begun
        obtain ⟨next, found', near⟩ := plays.others (underway.ne child).symm found
        exact ⟨next, found', begun.near near⟩
      older := underway.older
      parents := fun i => by
        rw [parents i]
        exact underway.parents i
      busy := fun i e' child' => by
        by_cases self : e' = e
        case pos =>
          -- nobody else replays the endpoint
          obtain rfl := self
          obtain rfl := child.task_eq nodup child'
          rw [Function.update_self]
          exact track
        case neg =>
          have other : i ≠ j := fun same => self ((same ▸ child').endpoint_eq child)
          rw [Function.update_of_ne self]
          exact (underway.busy i e' child').aside (fun old => plays.others other)
            (deal.elsewhere e' self) (others e' self) (apart self)
      idle := fun e' out => by
        have other : e' ≠ e := fun same => out (same ▸ member)
        obtain ⟨still, silent⟩ := underway.idle e' out
        refine ⟨(deal.elsewhere e' other).trans still, fun h told => ?_⟩
        exact (List.mem_append.mp told).elim (silent h) (apart other h) }

/-- Whatever task of the flush makes a step, each replay stays on its course, and fewer steps are
ahead. -/
theorem Underway.step (underway : Underway f es s script t script' ns due last)
    (nodup : es.Nodup) (plays : Plays (InFlush f) (t, script') (u, script'')) :
    ∃ ns' due' last', Underway f es s script u script'' ns' due' last' ∧
      (es.map due').sum + last' < (es.map due).sum + last := by
  obtain ⟨j, own, moved⟩ := plays.mover
  rcases own with rfl | waited
  · -- the flush itself can only end
    obtain ⟨stage, at_, begun⟩ := underway.begun
    refine ⟨ns, due, 0, ?_⟩
    cases moved with
    | @advance _ _ i stage' own at_' runnable =>
      obtain rfl := own
      obtain rfl := Option.some.inj (at_.symm.trans at_')
      cases begun with
      | joining left_ n more =>
        obtain rfl : left_ = 0 := by simpa [Stage.isRunnable] using runnable
        simp only [Service.step, advance, at_]
        exact ⟨underway.ends (.count n), Nat.add_lt_add_left more _⟩
      | finished => cases runnable
    | @work _ _ i stage' own at_' working =>
      obtain rfl := own
      obtain rfl := Option.some.inj (at_.symm.trans at_')
      cases begun <;> cases working
    | answer own at_' =>
      obtain rfl := own
      obtain rfl := Option.some.inj (at_.symm.trans at_')
      cases begun
  · obtain ⟨e, child⟩ := (underway.parents j).mp waited
    obtain ⟨ns', due', later, less⟩ := underway.replays nodup child moved
    exact ⟨ns', due', last, later, Nat.add_lt_add_right less last⟩

theorem flush_of_none (none_ : s.flushed = []) (f : Nat) : s.flush f = s.finish f (.count 0) := by
  have empty : (if s.isOffline = true then [] else s.queue.endpoints).isEmpty = true := by
    rw [show (if s.isOffline = true then [] else s.queue.endpoints) = [] from none_]
    rfl
  rw [flush]
  exact if_pos empty

theorem flush_of_some (some_ : s.flushed ≠ []) (f : Nat) :
    s.flush f = (s.setStage f (.joining s.flushed.length 0)).replayAll f s.flushed := by
  have many : ¬(if s.isOffline = true then [] else s.queue.endpoints).isEmpty = true := by
    rw [List.isEmpty_iff]
    exact some_
  rw [flush]
  exact if_neg many

/-- A flush with nothing to visit is at its end. -/
theorem BeginsFlush.ended (begins : BeginsFlush f s) (script : Script) :
    Underway f [] s script (s.finish f (.count 0)) script []
      (fun e => 8 * (s.queue.pending e).length + 7) 1 := by
  have there : (s.stage? f).isSome := Option.isSome_iff_exists.mpr ⟨_, begins.begins⟩
  have bare := bare_finish s f (.count 0)
  exact
    { smooth := fun some_ => absurd rfl some_
      journal := (congrArg Service.journal bare :)
      begun := ⟨_, (finish_turns there (.count 0)).own, .finished _⟩
      older := isSome_stage?.mp there
      parents := fun j => by
        rw [parent?_of_goesOn (finish_goesOn s f _) j]
        refine ⟨fun own => absurd own (begins.alone j), ?_⟩
        rintro ⟨e, child⟩
        cases child.2
      busy := fun j e child => by cases child.2
      idle := fun e _ => ⟨(congrArg (Service.lot · e) bare :), by simp⟩ }

/-- Once the replays were started, all that they do is ahead of them. -/
theorem BeginsFlush.started (begins : BeginsFlush f s) (smooth : Smooth s.setting s)
    (es : List Endpoint) (script : Script) :
    Underway f es s script ((s.setStage f (.joining es.length 0)).replayAll f es) script []
      (fun e => 8 * (s.queue.pending e).length + 7) 1 := by
  have there : (s.stage? f).isSome := Option.isSome_iff_exists.mpr ⟨_, begins.begins⟩
  let begun := s.setStage f (.joining es.length 0)
  have bare : (begun.replayAll f es).bare = s.bare := bare_replayAll begun f es
  have size : begun.tasks.length = s.tasks.length := by simp [begun, setStage]
  have older : f < begun.tasks.length := size ▸ isSome_stage?.mp there
  have stage : (begun.replayAll f es).stage? f = some (.joining es.length 0) := by
    rw [stage?_replayAll older]
    exact stage?_setStage_self there _
  exact
    { smooth := fun _ => smooth.deal (.of_bare bare .config)
      journal := (congrArg Service.journal bare :)
      begun := ⟨_, stage, .joining _ _ Nat.one_pos⟩
      older := size ▸ older
      parents := fun j => by
        have alone : begun.parent? j ≠ some f := by
          rw [parent?_setStage]
          exact begins.alone j
        rw [← size]
        exact parent?_replayAll alone
      busy := fun j e child => by
        have lot : (begun.replayAll f es).lot e = ⟨s.queue.pending e, s.limits.states.get e,
            s.replays.get e, .ofCapacity 1⟩ := by
          rw [← begins.free e]
          exact (congrArg (Service.lot · e) bare :)
        have heads : Heads s.setting e j (.starting (.replay e)) ((begun.replayAll f es).lot e)
            (script.get e) (s.replayCourse e (script.get e)) := by
          rw [lot]
          exact .starting _ _ _ _
        exact ⟨_, _, stage?_child (size.symm ▸ child), heads, rfl, lot ▸ Nat.le_refl _⟩
      idle := fun e _ => ⟨(congrArg (Service.lot · e) bare :), by simp⟩ }

/-- Once the flush has begun, all that it does is ahead of its replays. -/
theorem BeginsFlush.underway (begins : BeginsFlush f s) (script : Script) :
    Underway f s.flushed s script (s.flush f) script []
      (fun e => 8 * (s.queue.pending e).length + 7) 1 := by
  by_cases none_ : s.flushed = []
  case pos =>
    rw [flush_of_none none_, none_]
    exact begins.ended script
  case neg =>
    have online : s.network ≠ .notReachable := by
      intro offline
      exact none_ (if_pos (by simp [isOffline, offline]))
    rw [flush_of_some none_]
    exact begins.started ⟨rfl, online, begins.inStep⟩ s.flushed script

/-! ## A whole flush -/

/-- None of the tasks can go on with the replies that are left. -/
def Halts (mine : Service → Nat → Prop) (s : Service) (script : Script) : Prop :=
  ∀ next, ¬Plays mine (s, script) next

/-- Once a flush has returned, its tasks have halted. -/
theorem halts_of_returned (crewed : s.Crewed) {result : Result}
    (returned : s.stage? f = some (.finished result)) (script : Script) :
    Halts (InFlush f) s script := by
  have standing : s.crew.standing? f = some (.ended result) := by
    rw [standing?_crew, returned]
    rfl
  have children : s.crew.children f = 0 :=
    (crewed.sound.tallies f).trans (Crew.awaits_of_standing? standing)
  rintro ⟨t, script'⟩ plays
  obtain ⟨j, own, moved⟩ := plays.mover
  have ended {stage : Stage} (at_ : s.stage? j = some stage) :
      ∃ result, stage = .finished result := by
    rcases own with rfl | waited
    · exact ⟨result, Option.some.inj (at_.symm.trans returned)⟩
    obtain ⟨task, found, rfl⟩ := Option.map_eq_some_iff.mp at_
    have parent : task.parent = some f := by
      rwa [parent?, found] at waited
    have member : task.member ∈ s.crew.members :=
      List.mem_map.mpr ⟨task, List.mem_of_getElem? found, rfl⟩
    have counted := List.countP_eq_zero.mp children task.member member
    cases stage : task.stage with
    | finished result => exact ⟨result, rfl⟩
    | _ => simp [Task.member, parent, stage, Stage.standing, Standing.isEnded] at counted
  cases moved with
  | @advance _ _ _ _ own at_ runnable =>
    obtain rfl := own
    obtain ⟨result, rfl⟩ := ended at_
    cases runnable
  | @work _ _ _ _ own at_ working =>
    obtain rfl := own
    obtain ⟨result, rfl⟩ := ended at_
    cases working
  | @answer _ _ _ _ _ _ _ own at_ =>
    obtain rfl := own
    obtain ⟨result, same⟩ := ended at_
    cases same

/-- What a flush makes of an endpoint. -/
def flushCourse (s : Service) (e : Endpoint) (replies : List PostResult) : Course :=
  if s.isOffline then ⟨[], s.queue.pending e, s.limits.states.get e, s.replays.get e, some 0⟩
  else s.replayCourse e replies

/-- An endpoint has come to what a course says, and this is what has happened. -/
structure Arrives (e : Endpoint) (c : Course) (ns : List Happening) (t : Service) : Prop where
  told : (ns.filter fun h => h.endpoint? = some e) = c.news.filter fun h => h.endpoint? = some e
  left : t.queue.pending e = c.left
  rate : t.limits.states.get e = c.rate
  planned : t.replays.get e = c.planned

/-- When the tasks of a flush have halted, each replay has come to the end of its course. -/
theorem Underway.arrives (underway : Underway f s.flushed s script t script' ns due last)
    (halts : Halts (InFlush f) t script') (e : Endpoint) :
    Arrives e (s.flushCourse e (script.get e)) ns t := by
  by_cases visited : e ∈ s.flushed
  case pos =>
    obtain ⟨i, inside⟩ := List.getElem?_of_mem visited
    have child : Child s.flushed s.tasks.length (s.tasks.length + i) e :=
      ⟨Nat.le_add_right .., by simpa using inside⟩
    have own : InFlush f t (s.tasks.length + i) := .inr ((underway.parents _).mpr ⟨e, child⟩)
    obtain ⟨stage, later, at_, heads, agrees, -⟩ := underway.busy _ e child
    have online : ¬s.isOffline = true := by
      intro offline
      rw [flushed, if_pos offline] at visited
      cases visited
    rw [flushCourse, if_neg online]
    rcases heads.rests_or_goes with ⟨rests, -⟩ | runnable | working | ⟨p, purpose, reply, more, rfl,
        home, some_⟩
    · -- nothing is ahead, so what has happened is the whole course
      rw [rests] at agrees
      exact
        { told := by simpa [Course.about, Course.tell] using (congrArg Course.news agrees).symm
          left := (congrArg Course.left agrees :).symm
          rate := (congrArg Course.rate agrees :).symm
          planned := (congrArg Course.planned agrees :).symm }
    · exact absurd (.advance own at_ runnable) (halts _)
    · exact absurd (.work own at_ working) (halts _)
    · exact absurd (.answer own at_ (home ▸ some_)) (halts _)
  case neg =>
    obtain ⟨lot, silent⟩ := underway.idle e visited
    have still : s.flushCourse e (script.get e) =
        ⟨[], s.queue.pending e, s.limits.states.get e, s.replays.get e, some 0⟩ := by
      unfold flushCourse
      split
      case isTrue => rfl
      case isFalse online =>
        rw [flushed, if_neg online] at visited
        have none_ : s.queue.pending e = [] := by
          simpa [Queue.endpoints, e.mem_all] using visited
        rw [replayCourse, none_]
        exact Setting.replay_nil
    rw [still]
    exact
      { told := by simpa [List.filter_eq_nil_iff] using silent
        left := congrArg Lot.entries lot
        rate := congrArg Lot.rate lot
        planned := congrArg Lot.planned lot }

/-- The flush itself makes the first step. -/
theorem BeginsFlush.first (begins : BeginsFlush f s)
    (plays : Plays (InFlush f) (s, script) (t, script')) : t = s.flush f ∧ script' = script := by
  obtain ⟨j, own, moved⟩ := plays.mover
  rcases own with rfl | waited
  case inr => exact absurd waited (begins.alone j)
  have at_ := begins.begins
  cases moved with
  | @advance _ _ i _ own =>
    obtain rfl := own
    simp only [Service.step, advance, at_, begin, and_self]
  | @work _ _ i _ own at_' working =>
    obtain rfl := own
    obtain rfl := Option.some.inj (at_.symm.trans at_')
    cases working
  | @answer _ _ i _ _ _ _ own at_' =>
    obtain rfl := own
    cases at_.symm.trans at_'

theorem Underway.run (underway : Underway f es s script t script' ns due last) (nodup : es.Nodup)
    (run : ReflTransGen (Plays (InFlush f)) (t, script') (u, script'')) :
    ∃ ns' due' last', Underway f es s script u script'' ns' due' last' := by
  generalize target : (u, script'') = final at run
  induction run generalizing u script'' with
  | refl =>
    cases target
    exact ⟨ns, due, last, underway⟩
  | tail _ plays ih =>
    cases target
    obtain ⟨ns', due', last', later⟩ := ih rfl
    obtain ⟨ns'', due'', last'', next, -⟩ := later.step nodup plays
    exact ⟨ns'', due'', last'', next⟩

/-- However far the flush is, it can be brought to a halt. -/
theorem Underway.halts (underway : Underway f es s script t script' ns due last)
    (nodup : es.Nodup) : ∃ u script'',
      ReflTransGen (Plays (InFlush f)) (t, script') (u, script'') ∧
        Halts (InFlush f) u script'' := by
  generalize ahead : (es.map due).sum + last = m
  induction m using Nat.strong_induction_on generalizing t script' ns due last with
  | _ m ih =>
    by_cases halted : Halts (InFlush f) t script'
    case pos => exact ⟨t, script', .refl, halted⟩
    obtain ⟨⟨u, script''⟩, goes⟩ := not_forall.mp halted
    have plays := not_not.mp goes
    obtain ⟨ns', due', last', next, less⟩ := underway.step nodup plays
    obtain ⟨v, script₃, run, halts⟩ := ih _ (ahead ▸ less) next rfl
    exact ⟨v, script₃, .head plays run, halts⟩

theorem BeginsFlush.plays (begins : BeginsFlush f s) (script : Script) :
    Plays (InFlush f) (s, script) (s.flush f, script) := by
  have step : Plays (InFlush f) (s, script) (s.step (.advance f), script) :=
    .advance (.inl rfl) begins.begins rfl
  simpa only [Service.step, advance, begins.begins, begin] using step

/-- Whatever replies there are, a flush can be brought to a halt. -/
theorem BeginsFlush.halts (begins : BeginsFlush f s) (script : Script) : ∃ t script',
    ReflTransGen (Plays (InFlush f)) (s, script) (t, script') ∧ Halts (InFlush f) t script' := by
  obtain ⟨t, script', run, halts⟩ := (begins.underway script).halts s.flushed_nodup
  exact ⟨t, script', .head (begins.plays script) run, halts⟩

/-- A flush makes of each endpoint what the course of that endpoint alone says. -/
theorem BeginsFlush.arrives (begins : BeginsFlush f s)
    (run : ReflTransGen (Plays (InFlush f)) (s, script) (t, script'))
    (halts : Halts (InFlush f) t script') :
    ∃ ns, t.journal = ns.reverse ++ s.journal ∧
      ∀ e, Arrives e (s.flushCourse e (script.get e)) ns t := by
  rcases ReflTransGen.cases_head run with same | ⟨⟨u, script₁⟩, plays, rest⟩
  · cases same
    exact absurd (.advance (.inl rfl) begins.begins rfl) (halts _)
  · obtain ⟨rfl, rfl⟩ := begins.first plays
    obtain ⟨ns, due, last, underway⟩ := (begins.underway _).run s.flushed_nodup rest
    exact ⟨ns, underway.journal, underway.arrives halts⟩

/-- Two flushes that differ in one endpoint only make the same of all others: what is posted and
told, what is left in the queue, the rate limit and the time of the planned replay. -/
theorem endpoints_independent {s₁ s₂ t₁ t₂ : Service} {f₁ f₂ : Nat}
    {script₁ script₂ script₁' script₂' : Script} {b : Endpoint}
    (begins₁ : BeginsFlush f₁ s₁) (begins₂ : BeginsFlush f₂ s₂)
    (setting : s₁.setting = s₂.setting) (network : s₁.network = s₂.network)
    (alike : ∀ e ≠ b, s₁.lot e = s₂.lot e ∧ script₁.get e = script₂.get e)
    (run₁ : ReflTransGen (Plays (InFlush f₁)) (s₁, script₁) (t₁, script₁'))
    (run₂ : ReflTransGen (Plays (InFlush f₂)) (s₂, script₂) (t₂, script₂'))
    (halts₁ : Halts (InFlush f₁) t₁ script₁') (halts₂ : Halts (InFlush f₂) t₂ script₂') :
    ∃ ns₁ ns₂ : List Happening,
      t₁.journal = ns₁.reverse ++ s₁.journal ∧ t₂.journal = ns₂.reverse ++ s₂.journal ∧
      ∀ e ≠ b,
        ((ns₁.filter fun h => h.endpoint? = some e) = ns₂.filter fun h => h.endpoint? = some e) ∧
        t₁.queue.pending e = t₂.queue.pending e ∧
        t₁.limits.states.get e = t₂.limits.states.get e ∧
        t₁.replays.get e = t₂.replays.get e := by
  obtain ⟨ns₁, journal₁, arrives₁⟩ := begins₁.arrives run₁ halts₁
  obtain ⟨ns₂, journal₂, arrives₂⟩ := begins₂.arrives run₂ halts₂
  refine ⟨ns₁, ns₂, journal₁, journal₂, fun e other => ?_⟩
  obtain ⟨lot, replies⟩ := alike e other
  have same : s₁.flushCourse e (script₁.get e) = s₂.flushCourse e (script₂.get e) := by
    have entries : s₁.queue.pending e = s₂.queue.pending e := congrArg Lot.entries lot
    have rate : s₁.limits.states.get e = s₂.limits.states.get e := congrArg Lot.rate lot
    have planned : s₁.replays.get e = s₂.replays.get e := congrArg Lot.planned lot
    have offline : s₁.isOffline = s₂.isOffline := congrArg (· == .notReachable) network
    rw [flushCourse, flushCourse, replayCourse, replayCourse, offline, setting, entries, rate,
      planned, replies]
  have first := arrives₁ e
  rw [same] at first
  have second := arrives₂ e
  exact ⟨first.told.trans second.told.symm, first.left.trans second.left.symm,
    first.rate.trans second.rate.symm, first.planned.trans second.planned.symm⟩

/-! A crash and a log that are on disk, for a run. -/

def waitingCrash : Pending := .make "a" 0 .crashes [1] 5

def waitingLog : Pending := .make "b" 1 .logs [2] 6

def twoWaiting : Queue where
  store := ⟨.folder [Storage.Key.file ⟨5, .crash, "a", by decide⟩ waitingCrash.encode,
    Storage.Key.file ⟨6, .log, "b", by decide⟩ waitingLog.encode], 1000⟩
  entries := ⟨[], [waitingLog], [waitingCrash], [], []⟩

theorem twoWaiting_inStep : twoWaiting.InStep := by
  have only (e : Endpoint) : ∀ p ∈ twoWaiting.pending e, p.endpoint = e ∧
      (p = waitingCrash ∨ p = waitingLog) := by
    cases e <;> decide
  refine ⟨⟨fun e p member => (only e p member).1, ?_⟩, fun p there => ?_, ?_⟩
  · intro e
    cases e <;> decide
  · rcases (only p.endpoint p there).2 with rfl | rfl
    · exact ⟨⟨5, .crash, "a", by decide⟩, by decide,
        Storage.Place.openFile_eq_ok_iff.mpr ⟨by decide +kernel, by decide +kernel⟩⟩
    · exact ⟨⟨6, .log, "b", by decide⟩, by decide,
        Storage.Place.openFile_eq_ok_iff.mpr ⟨by decide +kernel, by decide +kernel⟩⟩
  · rw [twoWaiting.store.stored_perm.length_eq]
    decide +kernel

/-- A flush of the crash and the log, and one in which the log is missing and logs are not
accepted. -/
theorem endpoints_independent_of_logs :
    let s₁ : Service :=
      { start .default countedIds 2 7 ⟨.absent, 1000⟩ ⟨.absent, 1000⟩ with
        queue := twoWaiting
        tasks := [⟨false, none, .starting .flush⟩] }
    let s₂ : Service :=
      { s₁ with
        queue := (twoWaiting.remove waitingLog).1
        limits := { s₁.limits with states := s₁.limits.states.set .logs ⟨some 9, 1⟩ } }
    let script₁ : Script := .const [.ok (.ofStatus 200)]
    let script₂ : Script := script₁.set .logs [.ok (.ofStatus 429)]
    ∃ t₁ script₁' t₂ script₂', ReflTransGen (Plays (InFlush 0)) (s₁, script₁) (t₁, script₁') ∧
      Halts (InFlush 0) t₁ script₁' ∧
      ReflTransGen (Plays (InFlush 0)) (s₂, script₂) (t₂, script₂') ∧
      Halts (InFlush 0) t₂ script₂' ∧
      t₁.queue.pending .crashes = t₂.queue.pending .crashes := by
  intro s₁ s₂ script₁ script₂
  have alone : ∀ j, s₁.parent? j ≠ some 0 := by
    intro j
    cases j <;> simp [parent?, s₁]
  have removed := twoWaiting_inStep.remove (e := .logs) rfl
  have begins₁ : BeginsFlush 0 s₁ := ⟨rfl, alone, fun e => by cases e <;> rfl, twoWaiting_inStep⟩
  have begins₂ : BeginsFlush 0 s₂ := ⟨rfl, alone, fun e => by cases e <;> rfl, removed.2.1⟩
  have alike : ∀ e ≠ .logs, s₁.lot e = s₂.lot e ∧ script₁.get e = script₂.get e := by
    intro e other
    have entries : s₁.queue.pending e = s₂.queue.pending e := (removed.2.2.2 e other).symm
    have rate : s₁.limits.states.get e = s₂.limits.states.get e :=
      (PerEndpoint.get_set_of_ne _ _ other).symm
    exact ⟨by simp only [lot, entries, rate]; rfl, (PerEndpoint.get_set_of_ne _ _ other).symm⟩
  obtain ⟨t₁, script₁', run₁, halts₁⟩ := begins₁.halts script₁
  obtain ⟨t₂, script₂', run₂, halts₂⟩ := begins₂.halts script₂
  obtain ⟨ns₁, ns₂, -, -, same⟩ :=
    endpoints_independent begins₁ begins₂ rfl rfl alike run₁ run₂ halts₁ halts₂
  exact ⟨t₁, script₁', t₂, script₂', run₁, halts₁, run₂, halts₂,
    (same .crashes (by decide)).2.1⟩

end Service

end Outbox
