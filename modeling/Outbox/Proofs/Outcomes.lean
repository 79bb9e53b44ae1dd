import Outbox.Proofs.Conservation
import Outbox.Proofs.OnLane
import Outbox.Proofs.Results

/-! # Outcomes and the queue

An attempt that leaves its delivery in the queue tells so, and after one that is over in another way
the delivery is out of the queue. But an attempt that does not get as far as the lane does not look
at the queue, and after the answer of the collector no attempt does. So a delivery that is said to
stay in the queue is there unless it was taken out before and has not come back: by another task, or
by the store, which deletes files to make room.
-/

namespace Outbox

open Storage (Key)

namespace Service

variable {s : Service} {m : Move} {ms : List Move} {e : Endpoint} {id : String} {j : Nat}
  {p : Pending} {o : SendOutcome} {reason : QueueReason} {home : Homes} {old new : Stage}
  {held : List (Pending × QueueReason)}

/-- The outcome of a task. -/
def outcome? (s : Service) (j : Nat) : Option SendOutcome := (s.stage? j).bind Stage.outcome?

/-- In this move the task comes to this outcome. -/
def Yields (s : Service) (m : Move) (j : Nat) (o : SendOutcome) : Prop :=
  (s.step m).outcome? j = some o ∧ s.outcome? j ≠ some o

instance (s : Service) (m : Move) (j : Nat) (o : SendOutcome) : Decidable (s.Yields m j o) :=
  inferInstanceAs (Decidable (_ ∧ _))

/-- In these moves the delivery was taken out of the queue, and it has not come back. -/
def Missing (s : Service) (ms : List Move) (e : Endpoint) (id : String) : Prop :=
  ∃ before m after, ms = before ++ m :: after ∧ (s.run before).Takes m e id ∧
    ∀ done, done <+: after → (s.run (before ++ m :: done)).queue.contains e id = false

/-! ## What is missing -/

theorem Missing.absent (missing : s.Missing ms e id) : (s.run ms).queue.contains e id = false := by
  obtain ⟨before, m, after, rfl, _, absent⟩ := missing
  exact absent after (List.prefix_refl after)

/-- What is not in the queue after a move was taken out in it, or it is still missing. -/
theorem has_or_missing_concat
    (stays : (s.run (ms ++ [m])).queue.contains e id = true ∨ (s.run ms).Takes m e id ∨
      s.Missing ms e id) :
    (s.run (ms ++ [m])).queue.contains e id = true ∨ s.Missing (ms ++ [m]) e id := by
  cases there : (s.run (ms ++ [m])).queue.contains e id with
  | true => exact .inl rfl
  | false =>
    rw [there] at stays
    refine .inr ?_
    rcases stays.resolve_left Bool.false_ne_true with takes | ⟨before, n, after, rfl, takes, absent⟩
    · refine ⟨ms, m, [], rfl, takes, fun done within => ?_⟩
      rw [List.prefix_nil.mp within]
      exact there
    · refine ⟨before, n, after ++ [m], by simp, takes, fun done within => ?_⟩
      rcases List.prefix_concat_iff.mp within with rfl | early
      · simpa using there
      · exact absent done early

/-- Whatever is in the ledger is in the queue, or it is missing. -/
theorem Initial.has_or_missing (initial : s.Initial) (ms : List Move) :
    ∀ p ∈ s.queue.held ++ s.accepted ms,
      (s.run ms).queue.contains p.endpoint p.id = true ∨ s.Missing ms p.endpoint p.id := by
  have tidy (ms : List Move) : (s.run ms).queue.Tidy :=
    (initial.reachable.run ms).inOrder.tidy
  induction ms using List.reverseRecOn with
  | nil =>
    intro p member
    rw [accepted, List.append_nil] at member
    exact .inl ((tidy []).contains_iff.mpr ⟨p, (tidy []).mem_held.mp member, rfl, rfl⟩)
  | append_singleton ms m ih =>
    intro p member
    rw [accepted_concat, ← List.append_assoc, List.mem_append] at member
    apply has_or_missing_concat
    have onward (there : (s.run ms).queue.Has p.endpoint p.id ∨
        ∃ q ∈ (s.run ms).arrivals m, q.endpoint = p.endpoint ∧ q.id = p.id) :
        (s.run (ms ++ [m])).queue.contains p.endpoint p.id = true ∨
          (s.run ms).Takes m p.endpoint p.id ∨ s.Missing ms p.endpoint p.id := by
      rw [(tidy _).contains_iff, run_concat]
      exact (has_step there).imp_right .inl
    rcases member with old | new
    · rcases ih p old with there | missing
      · exact onward (.inl ((tidy ms).contains_iff.mp there))
      · exact .inr (.inr missing)
    · exact onward (.inr ⟨p, new, rfl, rfl⟩)

/-! ## What is told -/

/-- A task that left a delivery in the queue has told so. -/
theorem told_of_held (old : Stage)
    (turns : Turns j held new (s.unplan old) (s.step (.advance j)))
    {h : Pending × QueueReason} (left : h ∈ held) :
    .event (.queued h.1.endpoint h.1.id h.2) ∈ s.news (.advance j) := by
  obtain ⟨hs, shape, told⟩ := turns.told
  rw [(s.unplan_same old).2.2.2] at shape
  rw [mem_news (m := .advance j) shape]
  have member : Happening.event (.queued h.1.endpoint h.1.id h.2) ∈ Happening.ofHeld held :=
    List.mem_map_of_mem left
  rw [← told] at member
  exact (List.mem_filter.mp member).1

/-- It is told that a delivery is left in the queue only by a task that leaves it there. -/
theorem held_of_told (told : .event (.queued e id reason) ∈ s.news m) :
    ∃ j old held new, m = .advance j ∧ s.stage? j = some old ∧ Leads (s.unplan old) old held new ∧
      ∃ h ∈ held, h.1.endpoint = e ∧ h.1.id = id := by
  have unheard {hs : List Happening} (shape : (s.step m).journal = hs ++ s.journal)
      (quiet : hs.filter Happening.isQueued = []) : False := by
    rw [mem_news shape] at told
    have member : Happening.event (.queued e id reason) ∈ hs.filter Happening.isQueued :=
      List.mem_filter.mpr ⟨told, rfl⟩
    rw [quiet] at member
    cases member
  by_cases advance : ∃ j, m = .advance j
  case neg =>
    obtain ⟨hs, shape, quiet⟩ := (step_passes s fun j at_ => advance ⟨j, at_⟩).told
    exact (unheard shape quiet).elim
  obtain ⟨j, rfl⟩ := advance
  cases at_ : s.stage? j with
  | none =>
    have still : (s.step (.advance j)).journal = [] ++ s.journal := by
      simp only [step, Service.advance, at_, List.nil_append]
    exact (unheard still rfl).elim
  | some old =>
    obtain ⟨held, new, leads, turns⟩ := advance_advances at_
    obtain ⟨hs, shape, spoken⟩ := turns.told
    rw [(s.unplan_same old).2.2.2] at shape
    have member : Happening.event (.queued e id reason) ∈ hs.filter Happening.isQueued :=
      List.mem_filter.mpr ⟨(mem_news (m := .advance j) shape).mp told, rfl⟩
    rw [spoken] at member
    obtain ⟨h, left, same⟩ := List.mem_map.mp member
    cases same
    exact ⟨j, old, held, new, rfl, at_, leads, h, left, rfl, rfl⟩

/-- Only a step of a task brings an outcome. -/
theorem outcome_of_passes {stage : Stage} (passes : Passes s m (s.step m))
    (found : (s.step m).stage? j = some stage) (got : stage.outcome? = some o) :
    ∃ first, s.stage? j = some first ∧ first.outcome? = some o := by
  cases at_ : s.stage? j with
  | none =>
    rw [newcomer_outcome (passes.brings j stage at_ found)] at got
    cases got
  | some first =>
    obtain ⟨stage', found', gets⟩ := passes.gets j first at_
    obtain rfl := Option.some.inj (found'.symm.trans found)
    exact ⟨first, rfl, gets_outcome gets got⟩

/-- A step of a task brings no outcome of another task. -/
theorem Turns.outcome_of_ne {i : Nat} {held : List (Pending × QueueReason)} {new stage : Stage}
    (turns : Turns i held new s t) (other : j ≠ i) (found : t.stage? j = some stage)
    (got : stage.outcome? = some o) :
    ∃ first, s.stage? j = some first ∧ first.outcome? = some o := by
  cases at_ : s.stage? j with
  | none =>
    rw [(turns.young j other stage at_ found).outcome?] at got
    cases got
  | some first =>
    obtain ⟨stage', found', near⟩ := turns.others j other first at_
    obtain rfl := Option.some.inj (found'.symm.trans found)
    exact ⟨first, rfl, near.outcome?.symm.trans got⟩

/-- A task comes to an outcome in a step of its own. -/
theorem yields_comes (tidy : s.queue.Tidy) (yields : s.Yields m j o) :
    ∃ old held new, m = .advance j ∧ s.stage? j = some old ∧
      Turns j held new (s.unplan old) (s.step m) ∧ old.outcome? ≠ some o ∧ Comes s old held o := by
  obtain ⟨after, before⟩ := yields
  obtain ⟨stage, found, got⟩ := Option.bind_eq_some_iff.mp after
  have fresh (first : Stage) : s.stage? j = some first → first.outcome? ≠ some o := by
    intro at_ same
    exact before (Option.bind_eq_some_iff.mpr ⟨first, at_, same⟩)
  by_cases advance : ∃ i, m = .advance i
  case neg =>
    have passes := step_passes s fun i at_ => advance ⟨i, at_⟩
    obtain ⟨first, at_, same⟩ := outcome_of_passes passes found got
    exact absurd same (fresh first at_)
  obtain ⟨i, rfl⟩ := advance
  cases at_ : s.stage? i with
  | none =>
    have still : s.step (.advance i) = s := by simp only [step, Service.advance, at_]
    exact absurd got (fresh stage (still ▸ found))
  | some old =>
    obtain ⟨held, new, leads, turns⟩ := advance_advances at_
    obtain ⟨_, queue, tasks, _⟩ := s.unplan_same old
    by_cases self : j = i
    case neg =>
      obtain ⟨first, there, same⟩ := turns.outcome_of_ne self found got
      rw [stage?, tasks] at there
      exact absurd same (fresh first there)
    subst self
    obtain rfl := Option.some.inj (turns.own.symm.trans found)
    refine ⟨old, held, new, rfl, at_, turns, fresh old at_, ?_⟩
    cases leads.outcome (queue.symm ▸ tidy) got with
    | before same => exact .before same
    | unsupported => exact .unsupported
    | queued mine home name told => exact .queued mine home name told
    | skipped mine missing => exact .skipped mine (queue ▸ missing)
    | ended mine at_ other same => exact .ended mine at_ other same

/-! ## What has left the queue -/

/-- What a task took out of the queue with the lane is not there. -/
def Emptied (s : Service) : Prop := ∀ j p ending, s.hand? j = some (p, .removed ending) →
  ending.onLane = true → ¬s.queue.Has p.endpoint p.id

theorem Emptied.step (sound : s.Sound home) (emptied : s.Emptied) (m : Move) :
    (s.step m).Emptied := by
  obtain ⟨added, o, moved, became⟩ := step_moved s m
  rintro j p ending hand onLane ⟨x, held, home_, name⟩
  have queue : (s.step m).queue = o.queue := congrArg Outline.queue became.outline
  rw [queue] at held
  rw [hand?, became.view] at hand
  rcases moved.removed_origin hand with before | ⟨_, gone⟩
  case inr =>
    rw [gone] at held
    exact (Queue.holds_remove.mp held).2 ⟨home_, name⟩
  rcases moved.held sound.traced held with there | fresh | ⟨k, q, time, rest, _, view, rfl⟩
  · exact emptied j p ending before onLane ⟨x, there, home_, name⟩
  · rw [name, sound.home_of_hand? before] at fresh
    cases fresh
  · -- whoever stores it again has the lane, too
    have recording : s.hand? k = some (q, .recording time) := by
      rw [hand?, view]
      rfl
    obtain rfl := sound.eq_of_hand? before recording name.symm onLane rfl
    cases recording.symm.trans before

theorem Initial.emptied (initial : s.Initial) (sound : s.Sound home) (ms : List Move) :
    (s.run ms).Emptied := by
  induction ms using List.reverseRecOn with
  | nil =>
    intro j p ending hand
    have free : s.hand? j = none := by
      rw [hand?, initial.idle]
      rfl
    cases free.symm.trans hand
  | append_singleton ms m ih =>
    obtain ⟨_, _, sound'⟩ := sound.run ms
    rw [run_concat]
    exact ih.step sound' m

/-- Whoever gives up a delivery without the lane replays its endpoint, in every run. -/
theorem Initial.proper (initial : s.Initial) (ms : List Move) :
    ∀ j stage, (s.run ms).stage? j = some stage → stage.Proper := by
  induction ms using List.reverseRecOn with
  | nil =>
    intro j stage found
    rw [run, List.foldl_nil, stage?, initial.tasks] at found
    cases found
  | append_singleton ms m ih =>
    rw [run_concat]
    exact stages_step (fun _ => Stage.Young.proper) (fun _ _ => Stage.Near.proper)
      (fun _ _ _ => Leads.proper) (fun _ => newcomer_proper) (fun _ _ _ => gets_proper) ih

/-- A step of a task leaves the queue alone. -/
theorem step_advance_queue (s : Service) (j : Nat) : (s.step (.advance j)).queue = s.queue := by
  obtain ⟨added, o, act, became⟩ := advance_acts s j
  exact (congrArg Outline.queue became.outline).trans act.queue

/-- A task that finds its delivery in the queue sends it, or tells that it is left there. -/
theorem told_of_found {purpose : Purpose} (tidy : s.queue.Tidy)
    (at_ : s.stage? j = some (.onLane p purpose))
    (there : s.queue.contains p.endpoint p.id = true) :
    (∃ clock payload, .post p.endpoint p.id clock payload ∈ s.news (.advance j)) ∨
      ∃ reason, .event (.queued p.endpoint p.id reason) ∈ s.news (.advance j) := by
  have inside : (s.stage? j).isSome := by simp [at_]
  have sent : s.step (.advance j) = s.send j p purpose := by
    simp only [step, Service.advance, at_]
  obtain ⟨current, found⟩ := Option.isSome_iff_exists.mp there
  obtain ⟨home, name, _⟩ := tidy.get?_eq_some_iff.mp found
  cases suppressed : s.suppression? current with
  | none =>
    have shape : (s.step (.advance j)).journal =
        [.post p.endpoint current.id s.clock current.payload] ++ s.journal := by
      simp only [sent, send, found, suppressed]
      rfl
    refine .inl ⟨s.clock, current.payload, (mem_news shape).mpr ?_⟩
    rw [name]
    exact List.mem_singleton_self _
  | some reason =>
    have turns := (hold_goes s suppressed inside).release inside p.endpoint reason purpose
    have held : s.step (.advance j) =
        ((s.hold current reason).leaveLane j p.endpoint).conclude j (.queued reason) purpose := by
      simp only [sent, send, found, suppressed]
    rw [← held] at turns
    refine .inr ⟨reason, ?_⟩
    rw [← home, ← name]
    exact told_of_held (.onLane p purpose) turns (List.mem_singleton_self (current, reason))

/-! ## Outcomes -/

/-- How outcomes and the queue agree in one move, after a run from `s`. -/
structure OutcomesAgree (s : Service) (ms : List Move) (m : Move) : Prop where
  /-- A task whose delivery is left in the queue tells so. -/
  told : ∀ j reason, (s.run ms).Yields m j (.queued reason) →
    ∃ p, ((s.run ms).view j).pendings = [p] ∧
      .event (.queued p.endpoint p.id reason) ∈ (s.run ms).news m
  /-- When it is told that a delivery is left in the queue, it is there unless it is missing. -/
  queued : ∀ e id reason, .event (.queued e id reason) ∈ (s.run ms).news m →
    (((s.run ms).step m).queue.contains e id = true ↔ ¬s.Missing ms e id)
  /-- When a task comes to another outcome, its delivery is not in the queue. -/
  settled : ∀ j outcome, (s.run ms).Yields m j outcome → (∀ reason, outcome ≠ .queued reason) →
    outcome ≠ .dropped .unsupportedEndpoint →
    ∃ p, ((s.run ms).view j).pendings = [p] ∧
      ((s.run ms).step m).queue.contains p.endpoint p.id = false
  /-- When a task tells that an attempt has ended its delivery, that is not in the queue. -/
  ended : ∀ j p ending, m = .advance j → (s.run ms).hand? j = some (p, .removed ending) →
    ending.onLane = true → ((s.run ms).step m).queue.contains p.endpoint p.id = false
  /-- A delivery in the queue is not skipped: it is sent, or it is told that it is left there. -/
  skipped : ∀ j p purpose, m = .advance j → (s.run ms).stage? j = some (.onLane p purpose) →
    ((s.run ms).step m).queue.contains p.endpoint p.id = true →
    (∃ clock payload, .post p.endpoint p.id clock payload ∈ (s.run ms).news m) ∨
      ∃ reason, .event (.queued p.endpoint p.id reason) ∈ (s.run ms).news m

theorem told_of_yields (tidy : s.queue.Tidy) (yields : s.Yields m j (.queued reason)) :
    ∃ p, (s.view j).pendings = [p] ∧ .event (.queued p.endpoint p.id reason) ∈ s.news m := by
  obtain ⟨old, held, new, rfl, at_, turns, before, comes⟩ := yields_comes tidy yields
  cases comes with
  | before same => exact absurd same before
  | @queued p h _ mine home name told =>
    refine ⟨p, by rw [view_of_stage? at_, mine], ?_⟩
    rw [← home, ← name]
    exact told_of_held old turns told
  | @ended _ ending _ _ _ _ _ same => cases ending <;> cases same

theorem Initial.contains_iff (initial : s.Initial) (ids : s.DistinctIds)
    (told : .event (.queued e id reason) ∈ (s.run ms).news m) :
    ((s.run ms).step m).queue.contains e id = true ↔ ¬s.Missing ms e id := by
  have tidy : (s.run ms).queue.Tidy := (initial.reachable.run ms).inOrder.tidy
  have ledger := (initial.ledger ids).run initial.reachable.inOrder ms
  obtain ⟨j, old, held, new, rfl, at_, leads, h, left, rfl, rfl⟩ := held_of_told told
  have queue := ((s.run ms).unplan_same old).2.1
  have there : Known (s.queue.held ++ s.accepted ms) h.1 := by
    rcases leads.known (queue.symm ▸ tidy) left with mine | held
    · exact ledger.tasks j _ (by rw [view_of_stage? at_]; exact mine)
    · exact ledger.queue _ (queue ▸ held)
  obtain ⟨d, member, origin⟩ := there
  have either := initial.has_or_missing ms d member
  rw [← Pending.endpoint_of_origin origin, ← Pending.id_of_origin origin] at either
  rw [step_advance_queue]
  refine ⟨fun there missing => ?_, fun present => either.resolve_right present⟩
  rw [missing.absent] at there
  cases there

/-- What a task took out of the queue with the lane is not there when it tells so. -/
theorem Emptied.absent (emptied : s.Emptied) (tidy : s.queue.Tidy) {ending : Ending}
    (hand : s.hand? j = some (p, .removed ending)) (onLane : ending.onLane = true) :
    (s.step (.advance j)).queue.contains p.endpoint p.id = false := by
  rw [step_advance_queue, Bool.eq_false_iff, ne_eq, tidy.contains_iff]
  exact emptied j p ending hand onLane

theorem Emptied.settled (emptied : s.Emptied) (tidy : s.queue.Tidy)
    (proper : ∀ j stage, s.stage? j = some stage → stage.Proper) (yields : s.Yields m j o)
    (other : ∀ reason, o ≠ .queued reason) (supported : o ≠ .dropped .unsupportedEndpoint) :
    ∃ p, (s.view j).pendings = [p] ∧ (s.step m).queue.contains p.endpoint p.id = false := by
  obtain ⟨old, held, new, rfl, at_, turns, before, comes⟩ := yields_comes tidy yields
  cases comes with
  | before same => exact absurd same before
  | unsupported => exact absurd rfl supported
  | queued => exact absurd rfl (other _)
  | @skipped p mine missing =>
    refine ⟨p, by rw [view_of_stage? at_, mine], ?_⟩
    rw [step_advance_queue]
    exact Queue.contains_of_missing missing
  | @ended p ending purpose _ mine ended noReplay =>
    have view := view_of_stage? at_
    have hand : s.hand? j = some (p, .removed ending) := by
      rw [hand?, view, ended]
      rfl
    have onLane := proper j old at_
    rw [ended] at onLane
    have took : ending.onLane = true := onLane.resolve_right (by simp [noReplay])
    exact ⟨p, by rw [view, mine], emptied.absent tidy hand took⟩

/-- In every run outcomes agree with the queue, except for a delivery that is said to be left in the
queue after it was taken out. -/
theorem outcomes_agree_unless_taken (initial : s.Initial) (ids : s.DistinctIds) (ms : List Move)
    (m : Move) : s.OutcomesAgree ms m := by
  obtain ⟨home, sound⟩ := initial.sound ids
  have tidy : (s.run ms).queue.Tidy := (initial.reachable.run ms).inOrder.tidy
  have emptied := initial.emptied sound ms
  constructor
  case told => exact fun j reason yields => told_of_yields tidy yields
  case queued => exact fun e id reason told => initial.contains_iff ids told
  case settled =>
    intro j outcome yields other supported
    exact emptied.settled tidy (initial.proper ms) yields other supported
  case ended =>
    rintro j p ending rfl hand onLane
    exact emptied.absent tidy hand onLane
  case skipped =>
    rintro j p purpose rfl at_ there
    rw [step_advance_queue] at there
    exact told_of_found tidy at_ there

/-- A new delivery that the quota has no room for is not in the queue when it is attempted. -/
theorem not_contains_of_full (reachable : s.Reachable) {k : Key} {payload : Bytes}
    (at_ : s.stage? j = some (.working (.enqueue e payload)))
    (keyed : (s.enqueue e payload).2.1.key? = some k) (done : (s.enqueue e payload).2.2 = true)
    (full : ¬s.queue.HasRoom (s.enqueue e payload).2.1) :
    (s.run [.work j, .advance j]).queue.contains e (s.idOf s.made) = false := by
  have saved : (s.step (.work j)).queue = (s.queue.save (s.enqueue e payload).2.1).1 := by
    simp only [step, work, at_]
    rfl
  have tidy : (s.step (.work j)).queue.Tidy := (reachable.move _).inOrder.tidy
  have same : (s.run [.work j, .advance j]).queue = (s.step (.work j)).queue :=
    step_advance_queue (s.step (.work j)) j
  rw [same, Bool.eq_false_iff, ne_eq, tidy.contains_iff, saved]
  exact Queue.not_has_save keyed done full

/-- A service whose store has room for one file. -/
def small : Service := start .default countedIds 0 0 ⟨.absent, 1⟩ ⟨.absent, 1⟩

/-- Without a connection a crash is put in the queue, and a log is to be stored after it. -/
def crowd : List Move :=
  [.network .notReachable, .call (.send .crashes [1]), .advance 0, .work 0, .advance 0,
    .call (.send .logs [2]), .advance 1]

theorem small_initial : small.Initial := .start _ _ _ _ _ _

theorem small_distinctIds : small.DistinctIds := distinctIds_start countedIds_injective _ _ _ _ _

/-- The store keeps the crash, so the log leaves the queue as soon as it is stored. -/
theorem crowd_evicts :
    (small.run (crowd ++ [.work 1, .advance 1])).queue.contains .logs "dd" = false := by
  have at_ : (small.run crowd).stage? 1 = some (.working (.enqueue .logs [2])) := by
    decide +kernel
  have keyed : ((small.run crowd).enqueue .logs [2]).2.1.key? =
      some ⟨0, .log, "dd", by decide⟩ := by decide +kernel
  have done : ((small.run crowd).enqueue .logs [2]).2.2 = true := by decide +kernel
  have full : ¬(small.run crowd).queue.HasRoom ((small.run crowd).enqueue .logs [2]).2.1 := by
    decide +kernel
  have name : (small.run crowd).idOf (small.run crowd).made = "dd" := by decide +kernel
  have gone := not_contains_of_full (small_initial.reachable.run crowd) at_ keyed done full
  rw [name, ← run_append] at gone
  exact gone

/-- The log is said to be left in the queue, after the store has taken it. -/
theorem outcomes_agree_unless_taken_of_crowd :
    small.Initial ∧ small.DistinctIds ∧
      (∃ reason, .event (.queued .logs "dd" reason) ∈
        (small.run (crowd ++ [.work 1])).news (.advance 1)) ∧
      small.Missing (crowd ++ [.work 1]) .logs "dd" := by
  have agree := outcomes_agree_unless_taken small_initial small_distinctIds (crowd ++ [.work 1])
    (.advance 1)
  have yields : (small.run (crowd ++ [.work 1])).Yields (.advance 1) 1 (.queued .offline) := by
    decide +kernel
  have known : ((small.run (crowd ++ [.work 1])).view 1).pendings =
      [⟨"dd", .logs, [2], 0, 1, 0, none⟩] := by decide +kernel
  obtain ⟨p, mine, told⟩ := agree.told 1 .offline yields
  rw [known, List.singleton_inj] at mine
  subst mine
  refine ⟨small_initial, small_distinctIds, ⟨_, told⟩, ?_⟩
  by_contra present
  have there := (agree.queued _ _ _ told).mpr present
  rw [← run_concat, List.append_assoc] at there
  exact absurd (there.symm.trans crowd_evicts) (by decide)

/-- A task has the outcome that its delivery was left in the queue, and the delivery is not
there. -/
theorem queued_without_entry :
    small.Initial ∧ small.DistinctIds ∧
      (small.run (crowd ++ [.work 1])).Yields (.advance 1) 1 (.queued .offline) ∧
      ((small.run (crowd ++ [.work 1])).view 1).pendings = [⟨"dd", .logs, [2], 0, 1, 0, none⟩] ∧
      (small.run (crowd ++ [.work 1, .advance 1])).queue.contains .logs "dd" = false :=
  ⟨small_initial, small_distinctIds, by decide +kernel, by decide +kernel, crowd_evicts⟩

end Service

end Outbox
