import Outbox.Proofs.Hints

/-! # Transitions do all or nothing

A transition that is skipped does not even call the host. One that fails has called the host until
it failed, and reports that once; the session is as it was. Only one that is completed changes the
session and sends the envelope that ended.
-/

namespace Outbox

variable {σ : Type}

/-- Why a call gave no value. -/
def Attempt.cause? {ε α : Type} (describe : ε → String) (a : Attempt ε α) : Option Cause :=
  match a.outcome describe with
  | .ok _ => none
  | .error cause => some cause

/-- What a report is about if the host fails at this. -/
def HostCall.failure : HostCall → DiagnosticKind
  | buildInitial _ | buildFinal _ => .envelopeBuildFail
  | prepare _ _ => .boundaryResetFail

namespace Host

/-- Why the host fails at what it is asked for, if it does, and the host after it. -/
def ask (h : Host σ) (host : σ) : HostCall → Option Cause × σ
  | .buildInitial p => ((h.buildInitial p host).1.cause? BuildError.text, (h.buildInitial p host).2)
  | .buildFinal p => ((h.buildFinal p host).1.cause? BuildError.text, (h.buildFinal p host).2)
  | .prepare time clearUser =>
    ((h.prepare time clearUser host).1.cause? BoundaryError.text, (h.prepare time clearUser host).2)

/-- From `x` to `y` the host did all that it was asked for. -/
inductive Does (h : Host σ) (x : σ × List HostCall) : σ × List HostCall → Prop where
  | nothing : Does h x x
  | next {y : σ × List HostCall} {z : σ} {call : HostCall} (before : Does h x y)
      (done : h.ask y.1 call = (none, z)) : Does h x (z, y.2 ++ [call])

/-- From `x` to `y` the host failed at one thing that it was asked for, and `r` reports it. -/
def Fails (h : Host σ) (x y : σ × List HostCall) (r : Report) : Prop :=
  ∃ call cause, y.2 = x.2 ++ [call] ∧ h.ask x.1 call = (some cause, y.1) ∧
    r.kind = call.failure ∧ r.cause = some cause

/-- From `x` the host did all that it was asked for, or failed, as the result tells. -/
def Answers {α : Type} (h : Host σ) (x : σ × List HostCall) :
    Except Report α × (σ × List HostCall) → Prop
  | (.ok _, y) => h.Does x y
  | (.error r, y) => h.Fails x y r

variable {h : Host σ} {x y z : σ × List HostCall}

theorem Does.trans (first : h.Does x y) (second : h.Does y z) : h.Does x z := by
  induction second with
  | nothing => exact first
  | next _ done ih => exact .next ih done

end Host

namespace Turn

variable (turn : Turn (σ × List HostCall) TransitionOutcome) (h : Host σ) (c : Config)
  (t : Transition) (time : Millis) (s : Session) (host : σ)

/-- Nothing at all was done. -/
structure Skips : Prop where
  session : turn.session = s
  uncalled : turn.host = (host, [])
  unreported : turn.reports = []
  unsent : turn.sent = none

/-- The host did what it was asked for up to a point, failed there, and that was reported. -/
structure Fails : Prop where
  session : turn.session = s
  unsent : turn.sent = none
  blamed : ∃ x r, h.Does (host, []) x ∧ h.Fails x turn.host r ∧ turn.reports = [r]

/-- The host did all that it was asked for, the session is the next one, and the envelope that
ended, if there was one, is sent in its final form. -/
structure Completes : Prop where
  state : turn.session.state = t.target s.state
  done : h.Does (host, []) turn.host
  unreported : turn.reports = []
  active_eq_none_iff : turn.session.active = none ↔
    (∃ id, t = .crash id) ∨
      (t.target s.state = .background ∧ c.backgroundActivityEnabled = false)
  begun : ∀ e ∈ turn.session.active, ∃ x, h.Does (host, []) x ∧
    h.buildInitial ⟨time, t.target s.state, t.coldStart, s.nextNumber (t.target s.state)⟩ x.1 =
      (.value e, turn.host.1)
  sent_isSome : turn.sent.isSome = s.active.isSome
  ended : ∀ e ∈ s.active, ∀ sent ∈ turn.sent,
    sent.2 = t.snapshotType ∧ (h.buildFinal ⟨e, time, t.endReason⟩ host).1 = .value sent.1

end Turn

theorem Transition.startsEnvelope_eq_false_iff {t : Transition} :
    t.startsEnvelope = false ↔ ∃ id, t = .crash id := by
  cases t <;> simp [startsEnvelope]

namespace Session

variable {h : Host σ} {c : Config} {t : Transition} {time : Millis} {s : Session} {host : σ}
  {x y : σ × List HostCall} {r : Report}

/-! ## What the host is asked for -/

theorem buildFinal_answers (h : Host σ) (t : Transition) (time : Millis) (s : Session)
    (x : σ × List HostCall) : h.Answers x (s.buildFinal h.watched t time x) := by
  unfold buildFinal
  cases s.active with
  | none => exact .nothing
  | some e =>
    simp only [Host.watched]
    cases built : (h.buildFinal ⟨e, time, t.endReason⟩ x.1).1.outcome BuildError.text with
    | ok f => exact .next .nothing (by simp [Host.ask, Attempt.cause?, built])
    | error cause => exact ⟨_, cause, rfl, by simp [Host.ask, Attempt.cause?, built], rfl, rfl⟩

theorem prepare_answers (h : Host σ) (t : Transition) (time : Millis) (x : σ × List HostCall) :
    h.Answers x (prepare h.watched t time x) := by
  simp only [prepare, Host.watched]
  cases done : (h.prepare time t.clearsUser x.1).1.outcome BoundaryError.text with
  | ok => exact .next .nothing (by simp [Host.ask, Attempt.cause?, done])
  | error cause => exact ⟨_, cause, rfl, by simp [Host.ask, Attempt.cause?, done], rfl, rfl⟩

theorem buildInitial_answers (h : Host σ) (c : Config) (t : Transition) (time : Millis)
    (s : Session) (x : σ × List HostCall) :
    h.Answers x (s.buildInitial h.watched c t time x) := by
  unfold buildInitial
  dsimp only
  split
  · simp only [Host.watched]
    cases built : (h.buildInitial ⟨time, t.target s.state, t.coldStart,
        s.nextNumber (t.target s.state)⟩ x.1).1.outcome BuildError.text with
    | ok e => exact .next .nothing (by simp [Host.ask, Attempt.cause?, built])
    | error cause => exact ⟨_, cause, rfl, by simp [Host.ask, Attempt.cause?, built], rfl, rfl⟩
  · exact .nothing

/-- The final form is what the host built of the running envelope. -/
theorem buildFinal_eq_ok {final : Option Envelope}
    (ends : s.buildFinal h.watched t time x = (.ok final, y)) :
    final.isSome = s.active.isSome ∧ ∀ e ∈ s.active, ∀ f ∈ final,
      (h.buildFinal ⟨e, time, t.endReason⟩ x.1).1 = .value f := by
  unfold buildFinal at ends
  cases running : s.active with
  | none =>
    simp only [running, Prod.mk.injEq, Except.ok.injEq] at ends
    simp [← ends.1]
  | some e =>
    simp only [running, Host.watched] at ends
    split at ends
    case h_2 => cases ends
    case h_1 f built =>
      simp only [Prod.mk.injEq, Except.ok.injEq] at ends
      obtain ⟨rfl, -⟩ := ends
      refine ⟨rfl, ?_⟩
      rintro e ⟨⟩ f ⟨⟩
      exact Attempt.outcome_eq_ok_iff.mp built

/-- An envelope follows, unless the transition is a crash or goes to the background and background
activities are not recorded. -/
theorem follows_eq_false_iff :
    (t.startsEnvelope && (t.target s.state == .foreground || c.backgroundActivityEnabled)) =
      false ↔ (∃ id, t = .crash id) ∨
        (t.target s.state = .background ∧ c.backgroundActivityEnabled = false) := by
  rw [Bool.and_eq_false_iff, Bool.or_eq_false_iff, Transition.startsEnvelope_eq_false_iff]
  cases t.target s.state <;> simp

/-- The next envelope is what the host began, if one follows. -/
theorem buildInitial_eq_ok {next : Option Envelope}
    (begins : s.buildInitial h.watched c t time x = (.ok next, y)) :
    (next = none ↔ (∃ id, t = .crash id) ∨
      (t.target s.state = .background ∧ c.backgroundActivityEnabled = false)) ∧
      ∀ e ∈ next, h.buildInitial
        ⟨time, t.target s.state, t.coldStart, s.nextNumber (t.target s.state)⟩ x.1 =
          (.value e, y.1) := by
  unfold buildInitial at begins
  dsimp only at begins
  rw [← follows_eq_false_iff (c := c)]
  split at begins
  case isFalse nobody =>
    simp only [Prod.mk.injEq, Except.ok.injEq] at begins
    obtain ⟨rfl, rfl⟩ := begins
    exact ⟨by simpa using nobody, by simp⟩
  case isTrue follows =>
    simp only [Host.watched] at begins
    split at begins
    case h_2 => cases begins
    case h_1 e built =>
      simp only [Prod.mk.injEq, Except.ok.injEq] at begins
      obtain ⟨rfl, rfl⟩ := begins
      refine ⟨by simp [follows], ?_⟩
      rintro e ⟨⟩
      exact Prod.ext (Attempt.outcome_eq_ok_iff.mp built) rfl

/-! ## Manual ends -/

/-- The host may not end an envelope if none runs in the foreground, or if it is too young. -/
theorem manualEndAllowed_eq_false_iff :
    s.manualEndAllowed c time = false ↔
      (∀ e ∈ s.active, e.isBackground = true) ∨
        ∃ e ∈ s.active, (time.since e.start).val < c.minManualSession.val := by
  unfold manualEndAllowed foregroundEnvelope?
  cases s.active with
  | none => simp
  | some e => cases background : e.isBackground <;> simp [background, Option.filter]

/-- Where the hint is right it makes no difference. -/
theorem transition_of_settled (settled : s.hint = s.state) (host : σ) :
    s.transition h c t time host = s.transit h c t time host := by
  unfold transition
  split
  case isTrue redundant => exact (transit_of_redundant (settled ▸ redundant)).symm
  case isFalse => rfl

/-- A transition that finds something to do is not skipped. -/
theorem transit_manual_eq_skipped_iff {clearUser : Bool} :
    (s.transit h c (.manual clearUser) time host).result = .skipped ↔
      s.state = .background ∨ s.manualEndAllowed c time = false := by
  unfold transit
  simp only [Transition.isRedundant, Bool.true_and]
  cases s.state <;> cases s.manualEndAllowed c time <;> simp [stay]
  split
  · simp
  split
  · simp
  split <;> simp

theorem transition_hint (settled : s.hint = s.state) (host : σ) :
    (s.transition h c t time host).session.hint =
      (s.transition h c t time host).session.state := by
  rw [transition_of_settled settled]
  exact transit_hint settled

theorem transition_watched (h : Host σ) (c : Config) (t : Transition) (time : Millis) (s : Session)
    (x : σ × List HostCall) :
    (s.transition h.watched c t time x).unwatched = s.transition h c t time x.1 := by
  unfold transition
  split
  · rfl
  · exact transit_watched h c t time s x

theorem heed_hint {w : Story σ} (settled : w.session.hint = w.session.state) (call : Call) :
    (w.heed h c call).session.hint = (w.heed h c call).session.state := by
  cases call with
  | transition t time => exact transition_hint settled w.host
  | checkpoint time =>
    have same := (checkpoint_sketches h time w.session w.host).1
    simpa [Story.heed, Story.record, same] using settled
  | checkpointBackground time =>
    have same := (checkpointBackground_sketches h time w.session w.host).1
    simpa [Story.heed, Story.record, same] using settled

/-- Whatever was called since the process began, the hint is the state between the calls. -/
theorem hint_of_calls (h : Host σ) (c : Config) (state : ProcessState) (time : Millis) (host : σ)
    (calls : List Call) :
    let w := calls.foldl (Story.heed h c) (Story.start h c state time host)
    w.session.hint = w.session.state := by
  have all {w : Story σ} (settled : w.session.hint = w.session.state) :
      (calls.foldl (Story.heed h c) w).session.hint =
        (calls.foldl (Story.heed h c) w).session.state := by
    induction calls generalizing w with
    | nil => exact settled
    | cons call calls ih => exact ih (heed_hint settled call)
  exact all (transition_hint (s := initial state) rfl host)

/-! ## All or nothing -/

theorem Transits.fails_of_failed {turn : Turn (σ × List HostCall) TransitionOutcome}
    (did : Transits h.watched c t time s (host, []) turn) (failed : turn.result = .failed) :
    turn.Fails h s host := by
  cases did with
  | skips | completes => cases failed
  | @unended x r ends =>
    have final := buildFinal_answers h t time s (host, [])
    rw [ends] at final
    exact ⟨rfl, rfl, _, r, .nothing, final, rfl⟩
  | @unprepared x y _ r ends prepares =>
    have final := buildFinal_answers h t time s (host, [])
    have prepared := prepare_answers h t time x
    rw [ends] at final
    rw [prepares] at prepared
    exact ⟨rfl, rfl, x, r, final, prepared, rfl⟩
  | @unbegun x y z _ r ends prepares begins =>
    have final := buildFinal_answers h t time s (host, [])
    have prepared := prepare_answers h t time x
    have next := buildInitial_answers h c t time s y
    rw [ends] at final
    rw [prepares] at prepared
    rw [begins] at next
    exact ⟨rfl, rfl, y, r, final.trans prepared, next, rfl⟩

theorem Transits.completes_of_completed {turn : Turn (σ × List HostCall) TransitionOutcome}
    (did : Transits h.watched c t time s (host, []) turn) (completed : turn.result = .completed) :
    turn.Completes h c t time s host := by
  cases did with
  | skips | unended | unprepared | unbegun => cases completed
  | @completes x y z final next ends prepares begins =>
    have built := buildFinal_answers h t time s (host, [])
    have prepared := prepare_answers h t time x
    have began := buildInitial_answers h c t time s y
    rw [ends] at built
    rw [prepares] at prepared
    rw [begins] at began
    obtain ⟨some_, final_⟩ := buildFinal_eq_ok ends
    obtain ⟨none_, next_⟩ := buildInitial_eq_ok begins
    have ready : h.Does (host, []) y := built.trans prepared
    refine ⟨rfl, ready.trans began, rfl, none_, fun e running => ⟨y, ready, next_ e running⟩,
      ?_, ?_⟩
    · simpa using some_
    · intro e running sent member
      obtain ⟨f, built, rfl⟩ := Option.map_eq_some_iff.mp member
      exact ⟨rfl, final_ e running f built⟩

/-- A transition does all or nothing, whatever the host does at any point.

A skipped one does nothing at all. A failed one leaves the session as it was, sends nothing, and
makes the one report of what the host failed at. After a completed one the session is in the target
state with the envelope that the host has begun, which is none only after a crash or in the
background if no background activities are recorded; nothing is reported, and the envelope that ran
before, if there was one, is sent. That the host is watched makes no difference to it.

Between the calls the hint is the state. Then a manual end is skipped exactly in the background,
without an envelope in the foreground, or for one that is too young. -/
theorem all_or_nothing (h : Host σ) (c : Config) (t : Transition) (time : Millis) (s : Session)
    (host : σ) :
    let turn := s.transition h.watched c t time (host, [])
    turn.unwatched = s.transition h c t time host ∧
      (turn.result = .skipped → turn.Skips s host) ∧
      (turn.result = .failed → turn.Fails h s host) ∧
      (turn.result = .completed → turn.Completes h c t time s host) ∧
      (s.hint = s.state → turn.session.hint = turn.session.state ∧
        ∀ clearUser, t = .manual clearUser → (turn.result = .skipped ↔
          s.state = .background ∨ (∀ e ∈ s.active, e.isBackground = true) ∨
            ∃ e ∈ s.active, (time.since e.start).val < c.minManualSession.val)) := by
  intro turn
  have did : Transits h.watched c t time s (host, []) turn :=
    transition_transits h.watched c t time s (host, [])
  refine ⟨transition_watched h c t time s (host, []), ?_, did.fails_of_failed,
    did.completes_of_completed, ?_⟩
  · intro skipped
    change turn.result = .skipped at skipped
    generalize turn = turn at did skipped
    cases did with
    | skips => exact ⟨rfl, rfl, rfl, rfl⟩
    | unended | unprepared | unbegun | completes => cases skipped
  · intro settled
    refine ⟨transition_hint settled (host, []), ?_⟩
    rintro clearUser rfl
    have same : turn = s.transit h.watched c (.manual clearUser) time (host, []) :=
      transition_of_settled settled (host, [])
    rw [same, transit_manual_eq_skipped_iff, manualEndAllowed_eq_false_iff]

/-- The host may not end a session that is ten milliseconds old. -/
theorem all_or_nothing_of_young :
    let s := (begin Puppet.host .default .foreground 0 .fresh).session
    let turn := s.transition Puppet.host.watched .default (.manual true) 10 (.fresh, [])
    s.hint = s.state ∧ turn.result = .skipped ∧ turn.Skips s .fresh := by
  intro s turn
  have settled : s.hint = s.state := hint_of_calls Puppet.host .default .foreground 0 .fresh []
  obtain ⟨_, skips, _, _, hinted⟩ :=
    all_or_nothing Puppet.host .default (.manual true) 10 s .fresh
  obtain ⟨e, running, young⟩ : ∃ e ∈ s.active,
      ((10 : Millis).since e.start).val < Config.default.minManualSession.val := by decide +kernel
  have skipped : turn.result = .skipped :=
    ((hinted settled).2 true rfl).mpr (.inr (.inr ⟨e, running, young⟩))
  exact ⟨settled, skipped, skips skipped⟩

end Session

end Outbox
