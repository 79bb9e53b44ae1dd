import Outbox.Proofs.Backoff
import Outbox.Proofs.Tallies
import Outbox.Proofs.Turns

/-! # When a retry is due

After a failure that leaves further tries a replay of the endpoint is planned: after the delay for
the new count, at the latest moment of the clock if that comes first. This is so as long as the
delay fits into 63 bits. A longer one is read as a negative number, so the replay is planned for a
time that is past, and nothing is waited for.
-/

namespace Outbox

/-- The stages of a task that deals with files, or has done so. -/
def Stage.isFiling : Stage → Bool
  | working _ | worked _ => true
  | _ => false

namespace Service

variable {s : Service} {i j : Nat} {p : Pending} {purpose : Purpose} {e : Endpoint}
  {now time : Millis} {reply : Except TransportError Response} {stage : Stage} {ms ns : List Move}

/-! ## Counting a failure -/

/-- After a failure the attempt is to be counted. -/
theorem stage?_advance_of_failed
    (at_ : s.stage? j = some (.answered p (.classify reply) purpose))
    (failed : failsAttempt reply = true) :
    (s.step (.advance j)).stage? j = some (.working (.record p s.clock purpose)) := by
  have there : (s.stage? j).isSome := by simp [at_]
  have counts := verdict_classify_eq_count.mpr failed
  simp only [step, advance, at_]
  generalize Answer.classify reply = a at counts
  cases a with
  | success | tooManyRequests | payloadTooLarge => cases counts
  | notModified | incomplete => exact stage?_setStage_self there _
  | failure status =>
    rw [Answer.verdict] at counts
    split at counts
    case isTrue => cases counts
    case isFalse other =>
      simp only [handle, if_neg other]
      exact stage?_setStage_self there _

/-- The moves of others do not touch a task that deals with files. -/
theorem stage?_run_of_others (filing : stage.isFiling = true) (at_ : s.stage? j = some stage)
    (others : ∀ m ∈ ms, m.task? ≠ some j) : (s.run ms).stage? j = some stage := by
  induction ms generalizing s with
  | nil => exact at_
  | cons m ms ih =>
    obtain ⟨next, found, became⟩ := stage_of_others (others m (.head _)) at_
    have same : next = stage := by
      obtain near | ⟨_, time, job, rfl⟩ := became
      · cases near with
        | refl => rfl
        | seated | entered | counted => cases filing
      · cases filing
    exact ih (same ▸ found) fun n member => others n (.tail _ member)

/-- A task counts a failure by its own moves, whatever others do meanwhile. -/
theorem recorded_of_failed (at_ : s.stage? j = some (.answered p (.classify reply) purpose))
    (failed : failsAttempt reply = true) (others : ∀ m ∈ ms ++ ns, m.task? ≠ some j) :
    (s.run (.advance j :: ms ++ .work j :: ns)).stage? j =
      some (.worked (.recorded (p.failed s.clock) s.clock purpose)) := by
  have before : ∀ m ∈ ms, m.task? ≠ some j := fun m member =>
    others m (List.mem_append_left ns member)
  have after : ∀ m ∈ ns, m.task? ≠ some j := fun m member =>
    others m (List.mem_append_right ms member)
  have counting := stage?_run_of_others rfl (stage?_advance_of_failed at_ failed) before
  have counted := stage?_run_of_others rfl (stage?_step_work counting) after
  rw [run_append]
  exact counted

/-! ## Planning the retry -/

/-- If tries are left, a replay is planned, which is told, and the task is done with the
delivery. -/
theorem advance_of_recorded (at_ : s.stage? j = some (.worked (.recorded p time purpose)))
    (few : p.retries.val < s.config.maxRetryCount.val) : s.step (.advance j) =
      (((s.scheduleReplay p.endpoint (s.retryTime p time)).emit
        (.queued p.endpoint p.id .retryScheduled)).leaveLane j p.endpoint).conclude j
          (.queued .retryScheduled) purpose := by
  simp only [step, advance, at_, resume, if_neg (Int.not_le.mpr few)]

/-- No replay of the endpoint is planned for this time or an earlier one. -/
def Unplanned (s : Service) (e : Endpoint) (time : Millis) : Prop :=
  ∀ planned, s.replays.get e = some planned → time.val < planned.val

theorem stage?_scheduleReplay (unplanned : s.Unplanned e time) :
    (s.scheduleReplay e time).stage? s.tasks.length =
      some (.delayed s.elapsed (time.since s.clock).toNat (.replayAt e time)) := by
  have late : ((s.replays.get e).any fun planned => planned.val ≤ time.val) = false := by
    rw [Option.any_eq_false]
    intro planned noted
    simpa using unplanned planned noted
  rw [scheduleReplay, late]
  exact stage?_spawnAfter { s with replays := s.replays.set e (some time) } _ _

theorem emit_stage? (s : Service) (event : Event) (i : Nat) :
    (s.emit event).stage? i = s.stage? i := rfl

/-- A task that is to begin later stays as it is when another one gives its lane back and ends. -/
theorem stage?_release {delay : Nat} {job : Job} {start : Nat}
    (at_ : s.stage? i = some (.delayed start delay job)) (other : i ≠ j)
    (there : (s.stage? j).isSome) (e : Endpoint) (reason : QueueReason) (purpose : Purpose) :
    ((s.leaveLane j e).conclude j (.queued reason) purpose).stage? i =
      some (.delayed start delay job) := by
  have released := ((Kept.refl s).goes j).release there e reason purpose
  obtain ⟨last, found, near⟩ := released.others i other _ at_
  rw [found, near.eq_delayed]

/-- Unless one is planned for as early, a replay begins at the time that was planned. -/
theorem stage?_advance_of_recorded
    (at_ : s.stage? j = some (.worked (.recorded p time purpose)))
    (few : p.retries.val < s.config.maxRetryCount.val)
    (unplanned : s.Unplanned p.endpoint (s.retryTime p time)) :
    (s.step (.advance j)).stage? s.tasks.length =
      some (.delayed s.elapsed ((s.retryTime p time).since s.clock).toNat
        (.replayAt p.endpoint (s.retryTime p time))) := by
  have there : (s.stage? j).isSome := by simp [at_]
  have other : s.tasks.length ≠ j := Nat.ne_of_gt (isSome_stage?.mp there)
  have kept := scheduleReplay_held s p (s.retryTime p time) .retryScheduled nofun there
  have begun := stage?_scheduleReplay unplanned
  rw [← emit_stage? _ (.queued p.endpoint p.id .retryScheduled)] at begun
  rw [advance_of_recorded at_ few]
  exact stage?_release begun other (kept.isSome there) p.endpoint .retryScheduled purpose

/-! ## The time of it -/

/-- A delay of 63 bits counts as it is. -/
theorem val_retryTime_of_short (s : Service) (p : Pending) (time : Millis)
    (short : (s.config.retryDelay p.retries).val < 2 ^ 63) : (s.retryTime p time).val =
      min (2 ^ 63 - 1) (time.val + (s.config.retryDelay p.retries).val) := by
  have least := time.lo_le
  have nonneg := (s.config.retryDelay p.retries).lo_le
  rw [retryTime, Millis.shift, Millis.val_ofWord, if_pos short, Ranged.val_clamp]
  omega

/-- A longer one counts as less than nothing. -/
theorem val_retryTime_of_long (s : Service) (p : Pending) (time : Millis)
    (long : 2 ^ 63 ≤ (s.config.retryDelay p.retries).val) : (s.retryTime p time).val =
      max (-2 ^ 63) (time.val + (s.config.retryDelay p.retries).val - 2 ^ 64) := by
  have most := time.le_hi
  have limit := (s.config.retryDelay p.retries).le_hi
  rw [retryTime, Millis.shift, Millis.val_ofWord, if_neg (by omega), Ranged.val_clamp]
  omega

theorem toNat_since (near : time.val - now.val < 2 ^ 63) :
    (time.since now).toNat = (time.val - now.val).toNat := by
  rw [Ranged.toNat, Millis.since, Ranged.val_clamp]
  omega

/-- What is expected of the step from `s` to `t` in which a retry is planned for `time`: that this
is `delay` milliseconds after `now`, or the last moment of the clock, and not before `now`, and that
a replay is begun after the time from `now` to then, unless one is planned for as early. -/
structure BacksOff (s t : Service) (e : Endpoint) (now time : Millis) (delay : Word64) : Prop where
  due : time.val = min (2 ^ 63 - 1) (now.val + delay.val)
  notBefore : now.val ≤ time.val
  timer : s.Unplanned e time → t.stage? s.tasks.length =
    some (.delayed s.elapsed (time.val - now.val).toNat (.replayAt e time))

/-- The step of a task that has counted a failure just now, and may try again. -/
theorem backsOff_of_recorded (at_ : s.stage? j = some (.worked (.recorded p s.clock purpose)))
    (few : p.retries.val < s.config.maxRetryCount.val) :
    let next := s.step (.advance j)
    let delay := s.config.retryDelay p.retries
    let time := s.retryTime p s.clock
    (s.BacksOff next p.endpoint s.clock time delay ↔ delay.val < 2 ^ 63) ∧
      (2 ^ 63 ≤ delay.val →
        time.val = max (-2 ^ 63) (s.clock.val + delay.val - 2 ^ 64) ∧
        (s.Unplanned p.endpoint time → next.stage? s.tasks.length =
          some (.spawned (.replayAt p.endpoint time)))) := by
  have short := val_retryTime_of_short s p s.clock
  have long := val_retryTime_of_long s p s.clock
  have begun := stage?_advance_of_recorded at_ few
  dsimp only
  generalize s.retryTime p s.clock = time at short long begun ⊢
  generalize s.config.retryDelay p.retries = delay at short long ⊢
  have least := s.clock.lo_le
  have most := s.clock.le_hi
  have nonneg := delay.lo_le
  have limit := delay.le_hi
  have waits (near : time.val - s.clock.val < 2 ^ 63) (unplanned : s.Unplanned p.endpoint time) :
      (s.step (.advance j)).stage? s.tasks.length =
        some (.delayed s.elapsed (time.val - s.clock.val).toNat (.replayAt p.endpoint time)) := by
    rw [← toNat_since near]
    exact begun unplanned
  refine ⟨⟨fun backs => ?_, fun fits => ?_⟩, fun past => ?_⟩
  · by_contra past
    have due := backs.due
    rw [long (by omega)] at due
    omega
  · have due := short fits
    exact ⟨due, by omega, waits (by omega)⟩
  · have due := long past
    refine ⟨due, fun unplanned => ?_⟩
    have at_once : (time.val - s.clock.val).toNat = 0 := by omega
    rw [waits (by omega) unplanned, at_once]
    rfl

/-- A retry is planned as its delay says exactly if the delay is less than 2^63 milliseconds.

The answer to a task says nothing about the payload, and after the failure is counted tries are
left. The other tasks move as they like before the task counts it and before it goes on, and the
clock shows the same then as when the answer came. The task has a replay planned for a time that is
the delay for the new count after that, cut at the last moment of the clock, if the delay is less
than 2^63. Otherwise the time is 2^64 milliseconds too early, so it is past, and a replay goes on at
once. -/
theorem retry_backs_off_iff (at_ : s.stage? j = some (.answered p (.classify reply) purpose))
    (failed : failsAttempt reply = true)
    (few : (p.failed s.clock).retries.val < s.config.maxRetryCount.val)
    (others : ∀ m ∈ ms ++ ns, m.task? ≠ some j)
    (still : (s.run (.advance j :: ms ++ .work j :: ns)).clock = s.clock) :
    let t := s.run (.advance j :: ms ++ .work j :: ns)
    let next := t.step (.advance j)
    let delay := s.config.retryDelay (p.failed s.clock).retries
    let time := t.retryTime (p.failed s.clock) s.clock
    next = (((t.scheduleReplay p.endpoint time).emit
        (.queued p.endpoint p.id .retryScheduled)).leaveLane j p.endpoint).conclude j
          (.queued .retryScheduled) purpose ∧
      (t.BacksOff next p.endpoint s.clock time delay ↔ delay.val < 2 ^ 63) ∧
      (2 ^ 63 ≤ delay.val →
        time.val = max (-2 ^ 63) (s.clock.val + delay.val - 2 ^ 64) ∧
        (t.Unplanned p.endpoint time → next.stage? t.tasks.length =
          some (.spawned (.replayAt p.endpoint time)))) := by
  have config := run_config s (.advance j :: ms ++ .work j :: ns)
  have counted := recorded_of_failed at_ failed others
  generalize s.run (.advance j :: ms ++ .work j :: ns) = t at still config counted ⊢
  rw [← still] at counted few ⊢
  rw [← config] at few ⊢
  have planned := advance_of_recorded counted few
  have backsOff := backsOff_of_recorded counted few
  exact ⟨planned, backsOff⟩

/-- A delivery was sent when the clock showed 5, and the collector has failed. -/
def sentInVain (config : Config) : Service :=
  (start config countedIds 0 5 ⟨.absent, 1000⟩ ⟨.absent, 1000⟩).run (vainly.take 6)

/-- It is to be sent again a second later, whatever another task and the timers do meanwhile. -/
theorem retry_backs_off_iff_of_second :
    let s := sentInVain .default
    let ms : List Move := [.call (.send .logs [8]), .advance 1]
    let ns : List Move := [.work 1, .elapse 7]
    let t := s.run (.advance 0 :: ms ++ .work 0 :: ns)
    let p : Pending := .make "d" 0 .logs [7] 5
    s.stage? 0 = some (.answered p (.classify (.ok (.ofStatus 500))) .send) ∧
      failsAttempt (.ok (.ofStatus 500)) = true ∧
      (p.failed s.clock).retries.val < s.config.maxRetryCount.val ∧
      (∀ m ∈ ms ++ ns, m.task? ≠ some 0) ∧ t.clock = s.clock ∧
      t.BacksOff (t.step (.advance 0)) .logs 5 1005 1000 ∧
      (t.step (.advance 0)).stage? 2 = some (.sleeping 1007 (.replayAt .logs 1005)) := by
  intro s ms ns t p
  have at_ : s.stage? 0 = some (.answered p (.classify (.ok (.ofStatus 500))) .send) := by
    decide +kernel
  have failed : failsAttempt (.ok (.ofStatus 500)) = true := by decide
  have few : (p.failed s.clock).retries.val < s.config.maxRetryCount.val := by decide +kernel
  have others : ∀ m ∈ ms ++ ns, m.task? ≠ some 0 := by decide
  have still : t.clock = s.clock := by decide +kernel
  have delay : s.config.retryDelay (p.failed s.clock).retries = 1000 := by decide +kernel
  have time : t.retryTime (p.failed s.clock) s.clock = 1005 := by decide +kernel
  have now : s.clock = 5 := by decide +kernel
  obtain ⟨_, backs_off, _⟩ := retry_backs_off_iff at_ failed few others still
  have onTime : t.BacksOff (t.step (.advance 0)) .logs s.clock
      (t.retryTime (p.failed s.clock) s.clock) (s.config.retryDelay (p.failed s.clock).retries) :=
    backs_off.mpr (by rw [delay]; decide)
  rw [delay, time, now] at onTime
  have unplanned : t.Unplanned .logs 1005 := by
    have none_ : t.replays.get .logs = none := by decide +kernel
    intro planned noted
    rw [none_] at noted
    cases noted
  have size : t.tasks.length = 2 := by decide +kernel
  have elapsed : t.elapsed = 7 := by decide +kernel
  have begun := onTime.timer unplanned
  rw [size, elapsed] at begun
  exact ⟨at_, failed, few, others, still, onTime, begun⟩

/-- The longest delay there is, of 2^64 - 1 milliseconds, counts as one millisecond less than none:
the replay is planned for a time that is past, and the delivery is sent again when the clock still
shows 5. -/
theorem sent_again_at_once :
    let longest := { Config.default with
      retryInitialDelay := 18446744073709551615, retryMaxDelay := 18446744073709551615 }
    let t := (sentInVain longest).run [.advance 0, .work 0]
    let next := t.step (.advance 0)
    let delay := longest.retryDelay 1
    delay.val = 2 ^ 64 - 1 ∧ t.clock = 5 ∧ t.replays.get .logs = none ∧
      next.replays.get .logs = some 4 ∧ next.stage? 1 = some (.spawned (.replayAt .logs 4)) ∧
      ¬t.BacksOff next .logs 5 4 delay ∧
      (next.run [.advance 1, .advance 1, .advance 1]).journal.count
        (.post .logs "d" 5 [7]) = 2 := by
  refine ⟨by decide, by decide +kernel, by decide +kernel, by decide +kernel, by decide +kernel,
    fun backs_off => ?_, by decide +kernel⟩
  exact absurd backs_off.notBefore (by decide)

end Service

end Outbox
