import Mathlib
import Outbox.Proofs.Backoff
import Outbox.Proofs.OnCourse

/-! # A replay with nothing else going on

When only the task of a replay moves, and the transport answers its posts from a list, the replay
comes to what its course says.
-/

namespace Outbox

/-- The replies that are ready for the posts to each endpoint. -/
abbrev Script := PerEndpoint (List PostResult)

namespace Service

open Relation (ReflTransGen)

/-- A step of one of some tasks. A post is answered by the next reply that is ready for its
endpoint. -/
inductive Plays (mine : Service → Nat → Prop) : Service × Script → Service × Script → Prop where
  | advance {s : Service} {script : Script} {j : Nat} {stage : Stage} (own : mine s j)
      (at_ : s.stage? j = some stage) (runnable : stage.isRunnable = true) :
      Plays mine (s, script) (s.step (.advance j), script)
  | work {s : Service} {script : Script} {j : Nat} {stage : Stage} (own : mine s j)
      (at_ : s.stage? j = some stage) (working : stage.isWorking = true) :
      Plays mine (s, script) (s.step (.work j), script)
  | answer {s : Service} {script : Script} {j : Nat} {p : Pending} {purpose : Purpose}
      {reply : PostResult} {replies : List PostResult} (own : mine s j)
      (at_ : s.stage? j = some (.posting p purpose))
      (next : script.get p.endpoint = reply :: replies) :
      Plays mine (s, script) (s.step (.answer j reply), script.set p.endpoint replies)

/-- What the replays go by, in plain terms. -/
def rules (s : Service) : Setting where
  clock := s.clock
  maxAge := s.config.maxPendingAge
  maxRetries := s.config.maxRetryCount
  retryTime n := .clamp (s.clock.val + (s.config.retryDelay n).val) Millis.bounds
  pause := s.limits.cooldown

/-- The course of a replay of an endpoint, by what the service knows. -/
def course (s : Service) (e : Endpoint) (replies : List PostResult) : Course :=
  s.rules.course e (s.replays.get e) (s.queue.pending e) (s.limits.states.get e) replies

/-- From `s` to `t` an endpoint came to what a course says, and no other endpoint noticed. The task
`id` is the one of the replay. -/
structure Fulfils (id : Nat) (e : Endpoint) (c : Course) (s t : Service) : Prop where
  journal : t.journal = c.news.reverse ++ s.journal
  left : t.queue.pending e = c.left
  rate : t.limits.states.get e = c.rate
  planned : t.replays.get e = c.planned
  /-- Another task waits to replay the endpoint at the planned time. -/
  awaited : ∀ time, c.planned = some time →
    s.replays.get e = some time ∨ t.AwaitedBut id e time
  elsewhere : ∀ f ≠ e, t.lot f = s.lot f
  inStep : t.queue.InStep

variable {s t u : Service} {e : Endpoint} {id j m : Nat} {k : Setting} {c : Course}
  {script script' : Script} {mine : Service → Nat → Prop} {stage : Stage}
  {replies : List PostResult}

/-- Delays that fit into 63 bits mean what they say. -/
theorem setting_eq_rules (modest : s.config.retryMaxDelay.val < 9223372036854775808) :
    s.setting = s.rules := by
  have plain (n : Word32) :
      (Millis.ofWord (s.config.retryDelay n)).val = (s.config.retryDelay n).val := by
    have short := s.config.retryDelay_le n
    rw [Millis.val_ofWord, if_pos (by omega)]
  simp only [setting, rules, Setting.mk.injEq, and_true, true_and]
  funext n
  rw [Millis.shift, plain]

/-! ## One step and all steps -/

/-- Some task makes the step. -/
theorem Plays.mover (plays : Plays mine (s, script) (t, script')) :
    ∃ j, mine s j ∧ Plays (fun _ i => i = j) (s, script) (t, script') := by
  cases plays with
  | advance own at_ runnable => exact ⟨_, own, .advance rfl at_ runnable⟩
  | work own at_ working => exact ⟨_, own, .work rfl at_ working⟩
  | answer own at_ next => exact ⟨_, own, .answer rfl at_ next⟩

/-- Other tasks get a lane or a worker at most. -/
theorem Plays.others (plays : Plays (fun _ i => i = j) (s, script) (t, script')) {i : Nat}
    (other : i ≠ j) {old : Stage} (at_ : s.stage? i = some old) :
    ∃ stage, t.stage? i = some stage ∧ old.Near stage := by
  have apart {m : Move} (own : m.task? = some j) :
      ∃ stage, (s.step m).stage? i = some stage ∧ old.Near stage := by
    have not_mine : m.task? ≠ some i := fun same => other (Option.some.inj (same.symm.trans own))
    obtain ⟨stage, found, near | ⟨rfl, _⟩⟩ := stage_of_others not_mine at_
    · exact ⟨stage, found, near⟩
    · cases own
  cases plays with
  | advance own | work own | answer own =>
    obtain rfl := own
    exact apart rfl

/-- Whatever replay is planned in a step, another task waits for it. -/
theorem Plays.plans (plays : Plays (fun _ i => i = j) (s, script) (t, script')) {time : Millis}
    (planned : t.replays.get e = some time) :
    s.replays.get e = some time ∨ t.AwaitedBut j e time := by
  cases plays with
  | @advance _ _ _ stage own at_ runnable =>
    obtain rfl := own
    obtain ⟨held, last, leads, turns⟩ := advance_advances at_
    refine (turns.plans e time planned).imp_left fun noted => ?_
    unfold unplan at noted
    split at noted
    · split at noted
      · rw [PerEndpoint.get_set] at noted
        split at noted
        · cases noted
        · exact noted
      · exact noted
    · exact noted
  | @work _ _ i =>
    have same := (step_passes (m := .work i) s (by simp)).replays
    exact .inl (same ▸ planned)
  | @answer _ _ i _ _ reply =>
    have same := (step_passes (m := .answer i reply) s (by simp)).replays
    exact .inl (same ▸ planned)

/-- A step of a task that replays an endpoint does a bit of the course, and takes replies for that
endpoint only. -/
theorem Plays.proceeds (plays : Plays (fun _ i => i = j) (s, script) (t, script'))
    (smooth : Smooth k s) (at_ : s.stage? j = some stage)
    (heads : Heads k e j stage (s.lot e) (script.get e) c) :
    Proceeds k e j (script'.get e) (8 * (s.lot e).entries.length + stage.rank) c s t ∧
      ∀ f ≠ e, script'.get f = script.get f := by
  cases plays with
  | advance own at_' runnable =>
    obtain rfl := own
    obtain rfl := Option.some.inj (at_.symm.trans at_')
    exact ⟨advance_proceeds smooth at_ heads runnable, fun _ _ => rfl⟩
  | work own at_' working =>
    obtain rfl := own
    obtain rfl := Option.some.inj (at_.symm.trans at_')
    exact ⟨work_proceeds smooth at_ heads working, fun _ _ => rfl⟩
  | answer own at_' next =>
    obtain rfl := own
    obtain rfl := Option.some.inj (at_.symm.trans at_')
    obtain rfl := heads.home_of_posting
    rw [next] at heads
    refine ⟨?_, fun f other => PerEndpoint.get_set_of_ne _ _ other⟩
    rw [PerEndpoint.get_set_self]
    exact answer_proceeds at_ heads

theorem Proceeds.mono {m' : Nat} (proceeds : Proceeds k e j replies m c s t) (le : m ≤ m') :
    Proceeds k e j replies m' c s t := by
  obtain ⟨ns, later, stage, l, deal, at_, heads, same, less⟩ := proceeds
  exact ⟨ns, later, stage, l, deal, at_, heads, same, Nat.lt_of_lt_of_le less le⟩

/-- The task makes one more step. -/
theorem Proceeds.step (proceeds : Proceeds k e j (script.get e) m c s t) (smooth : Smooth k s)
    (plays : Plays (fun _ i => i = j) (t, script) (u, script')) :
    ∃ m' < m, Proceeds k e j (script'.get e) m' c s u := by
  obtain ⟨ns, later, stage, l, deal, at_, heads, rfl, less⟩ := proceeds
  rw [← deal.lot] at heads less
  exact ⟨_, less, .after deal (plays.proceeds (smooth.deal deal) at_ heads).1⟩

theorem Proceeds.run (proceeds : Proceeds k e j (script.get e) m c s t) (smooth : Smooth k s)
    (run : ReflTransGen (Plays fun _ i => i = j) (t, script) (u, script')) :
    Proceeds k e j (script'.get e) m c s u := by
  generalize origin : (t, script) = first at run
  generalize target : (u, script') = last at run
  induction run generalizing u script' with
  | refl =>
    cases origin
    cases target
    exact proceeds
  | @tail between last _ plays ih =>
    cases target
    obtain ⟨m', less, next⟩ := (ih rfl).step smooth plays
    exact next.mono (Nat.le_of_lt less)

/-- If the course says that the replay ends, then it does. -/
theorem Proceeds.finishes (proceeds : Proceeds k e j (script.get e) m c s t) (smooth : Smooth k s)
    (returns : c.returned.isSome = true) :
    ∃ u script' n, ReflTransGen (Plays fun _ i => i = j) (t, script) (u, script') ∧
      u.stage? j = some (.finished (.count n)) := by
  -- by induction on the steps that are ahead, and each step leaves fewer of them
  induction m using Nat.strong_induction_on generalizing t script with
  | _ m ih =>
    have goes {u : Service} {script' : Script}
        (plays : Plays (fun _ i => i = j) (t, script) (u, script')) :
        ∃ v script'' n, ReflTransGen (Plays fun _ i => i = j) (t, script) (v, script'') ∧
          v.stage? j = some (.finished (.count n)) := by
      obtain ⟨m', less, next⟩ := proceeds.step smooth plays
      obtain ⟨v, script'', n, run, ended⟩ := ih m' less next
      exact ⟨v, script'', n, .head plays run, ended⟩
    obtain ⟨ns, later, stage, l, deal, at_, heads, rfl, less⟩ := proceeds
    rcases heads.rests_or_goes with ⟨-, ends⟩ | runnable | working | ⟨p, purpose, reply, more, rfl,
        home, some_⟩
    · obtain ⟨n, returned⟩ := Option.isSome_iff_exists.mp returns
      exact ⟨t, script, n, .refl, at_.trans (congrArg some (ends n returned))⟩
    · exact goes (.advance rfl at_ runnable)
    · exact goes (.work rfl at_ working)
    · exact goes (.answer rfl at_ (home ▸ some_))

theorem plans_run (run : ReflTransGen (Plays fun _ i => i = j) (s, script) (t, script'))
    {time : Millis} (planned : t.replays.get e = some time) :
    s.replays.get e = some time ∨ t.AwaitedBut j e time := by
  generalize target : (t, script') = last at run
  induction run generalizing t script' with
  | refl =>
    cases target
    exact .inl planned
  | @tail between last _ plays ih =>
    cases target
    rcases plays.plans planned with noted | awaited
    · exact (ih noted rfl).imp_right (.of_others fun i other old at_ => plays.others other at_)
    · exact .inr awaited

/-- A replay with nothing else going on keeps to the course. However far it is, it can be brought to
its end while there are replies, and when it ends it has come to what the course says and returns
the number of accepted deliveries. -/
theorem replay_keeps_to_course (begins : s.stage? id = some (.starting (.replay e)))
    (free : s.lanes.get e = .ofCapacity 1) (inStep : s.queue.InStep)
    (modest : s.config.retryMaxDelay.val < 9223372036854775808) (online : s.network ≠ .notReachable)
    (unlimited : s.limits.isLimited e s.clock = false)
    (run : ReflTransGen (Plays fun _ j => j = id) (s, script) (t, script')) :
    ((s.queue.pending e).length ≤ (script.get e).length → ∃ u script'' n,
      ReflTransGen (Plays fun _ j => j = id) (t, script') (u, script'') ∧
        u.stage? id = some (.finished (.count n))) ∧
    ∀ result, t.stage? id = some (.finished result) →
      (∃ n, result = .count n ∧ (s.course e (script.get e)).returned = some n ∧
        n = (s.course e (script.get e)).news.countP Happening.isAcceptance) ∧
      Fulfils id e (s.course e (script.get e)) s t := by
  have smooth : Smooth s.setting s := ⟨rfl, online, inStep⟩
  have open_ : s.rules.limitedUntil? (s.limits.states.get e) = none := by
    rw [← Option.not_isSome_iff_eq_none]
    exact fun limited => Bool.false_ne_true (unlimited.symm.trans limited)
  have lot : s.lot e = ⟨s.queue.pending e, s.limits.states.get e, s.replays.get e,
      .ofCapacity 1⟩ := by
    rw [← free]
    rfl
  have start : Proceeds s.setting e id (script.get e) (8 * (s.queue.pending e).length + 8)
      (s.course e (script.get e)) s s := by
    refine ⟨[], s.course e (script.get e), _, _, .of_bare rfl e, begins, ?_, rfl,
      Nat.lt_succ_self _⟩
    rw [lot, course, ← Setting.replay_of_open open_, ← setting_eq_rules modest]
    exact .starting _ _ _ _
  have proceeds := start.run smooth run
  refine ⟨fun enough => proceeds.finishes smooth (Setting.course_returns enough),
    fun result ended => ?_⟩
  obtain ⟨ns, later, stage, l, deal, at_, heads, same, -⟩ := proceeds
  obtain rfl := Option.some.inj (ended.symm.trans at_)
  cases heads with
  | finished ps rate planned _ n =>
    have count : n = (s.course e (script.get e)).news.countP Happening.isAcceptance :=
      Setting.course_returned (congrArg Course.returned same)
    rw [same] at count ⊢
    have planned_ : t.replays.get e = planned := congrArg Lot.planned deal.lot
    exact ⟨⟨n, rfl, rfl, count⟩,
      { journal := by simpa [Course.tell] using deal.journal
        left := congrArg Lot.entries deal.lot
        rate := congrArg Lot.rate deal.lot
        planned := planned_
        awaited := fun time at_ => plans_run run (planned_.trans at_)
        elsewhere := deal.elsewhere
        inStep := deal.inStep inStep }⟩

/-- A log that waits to be sent. -/
def waiting (id : String) (sequence : Word64) : Pending := .make id sequence .logs [1] 5

/-- Four logs wait. -/
def fourLogs : List Pending := [waiting "a" 0, waiting "b" 1, waiting "c" 2, waiting "d" 3]

def fourWaiting : Queue where
  store := ⟨.folder (fourLogs.filterMap Pending.file?), 1000⟩
  entries := ⟨[], fourLogs, [], [], []⟩

theorem fourWaiting_inStep : fourWaiting.InStep := by
  have only (e : Endpoint) : ∀ p ∈ fourWaiting.pending e, p.endpoint = e ∧ p ∈ fourLogs := by
    cases e <;> decide
  have stored : ∀ p ∈ fourLogs, fourWaiting.OnDisk p := by decide +kernel
  refine ⟨⟨fun e p member => (only e p member).1, fun e => ?_⟩,
    fun p there => stored p (only p.endpoint p there).2, ?_⟩
  · cases e <;> decide
  · rw [fourWaiting.store.stored_perm.length_eq]
    decide +kernel

/-- Of four logs that wait the first one is accepted and the second one refused. The collector fails
at the third one, which is left for a retry, and the fourth one is not sent. -/
theorem replay_keeps_to_course_of_failure :
    let s : Service :=
      { start .default countedIds 4 7 ⟨.absent, 1000⟩ ⟨.absent, 1000⟩ with
        queue := fourWaiting
        tasks := [⟨false, none, .starting (.replay .logs)⟩] }
    let script : Script := .const
      [.ok (.ofStatus 200), .ok (.ofStatus 422), .ok (.ofStatus 503), .ok (.ofStatus 200)]
    s.queue.InStep ∧ ∃ t script', ReflTransGen (Plays fun _ j => j = 0) (s, script) (t, script') ∧
      t.stage? 0 = some (.finished (.count 1)) ∧
      t.queue.pending .logs = [(waiting "c" 2).failed 7, waiting "d" 3] ∧
      t.journal.countP Happening.isAcceptance = 1 ∧ t.replays.get .logs = some 1007 ∧
      Fulfils 0 .logs (s.course .logs (script.get .logs)) s t := by
  intro s script
  have keeps {t : Service} {script' : Script}
      (run : ReflTransGen (Plays fun _ j => j = 0) (s, script) (t, script')) :=
    replay_keeps_to_course (e := .logs) rfl rfl fourWaiting_inStep (by decide) (by decide)
      (by decide) run
  obtain ⟨t, script', n, run, ended⟩ := (keeps .refl).1 (by decide +kernel)
  obtain ⟨⟨m, same, returned, -⟩, fulfils⟩ := (keeps run).2 _ ended
  have one : (s.course .logs (script.get .logs)).returned = some 1 := by decide +kernel
  cases same
  cases one.symm.trans returned
  refine ⟨fourWaiting_inStep, t, script', run, ended, fulfils.left.trans ?_, ?_,
    fulfils.planned.trans ?_, fulfils⟩
  · decide +kernel
  · rw [fulfils.journal]
    decide +kernel
  · decide +kernel

end Service

end Outbox
