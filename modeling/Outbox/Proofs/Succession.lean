import Outbox.Session.Lifecycle

/-! # The succession of envelopes

A transition that is completed closes the running envelope, if there is one, and begins the next
one, if one follows; any other leaves the session alone, and so does a checkpoint. So along any
calls the envelopes are closed one after the other in the order in which they began, each one once,
and the one that still runs is the last.
-/

namespace Outbox

variable {σ : Type}

/-- A call of the session. -/
inductive Call where
  | transition (t : Transition) (time : Millis)
  | checkpoint (time : Millis)
  | checkpointBackground (time : Millis)
  deriving Repr, DecidableEq

/-- The end of an envelope: how and when it came, and the final form of the envelope. -/
structure Closing where
  source : Envelope
  transition : Transition
  time : Millis
  final : Envelope
  deriving Repr, DecidableEq

namespace Closing

/-- What is sent for it. -/
def sent (x : Closing) : Envelope × SnapshotType := (x.final, x.transition.snapshotType)

def call (x : Closing) : Call := .transition x.transition x.time

/-- The final form is what the host built for this end. -/
def Built (h : Host σ) (x : Closing) : Prop :=
  ∃ host, (h.buildFinal ⟨x.source, x.time, x.transition.endReason⟩ host).1 = .value x.final

theorem sent_isTerminal (x : Closing) : x.sent.2.isTerminal = true := by
  obtain ⟨source, t, time, final⟩ := x
  cases t <;> rfl

/-- What is sent is a crash exactly if a crash ended the envelope. -/
theorem sent_eq_crash_iff (x : Closing) : x.sent.2 = .crash ↔ ∃ id, x.transition = .crash id := by
  obtain ⟨source, t, time, final⟩ := x
  cases t <;> simp [sent, Transition.snapshotType]

end Closing

/-- What the host built for a checkpoint of an envelope. -/
def Sketch (h : Host σ) (e : Envelope) (time : Millis) (snapshot : Envelope) : Prop :=
  ∃ host, (h.buildFinal ⟨e, time, .periodic⟩ host).1 = .value snapshot

/-- The envelope that a transition began. -/
def Turn.begun? (turn : Turn σ TransitionOutcome) : Option Envelope :=
  if turn.result = .completed then turn.session.active else none

theorem Attempt.outcome_eq_ok_iff {ε α : Type} {describe : ε → String} {a : Attempt ε α} {x : α} :
    a.outcome describe = .ok x ↔ a = .value x := by
  cases a <;> simp [outcome]

namespace Session

variable {h : Host σ} {c : Config} {t : Transition} {time : Millis} {s : Session} {host x : σ}

/-- All that a transition can do. It fails where the host does, at the final form, at the boundary
or at the next envelope, and keeps what the host did to itself by then. -/
inductive Transits (h : Host σ) (c : Config) (t : Transition) (time : Millis) (s : Session)
    (host : σ) : Turn σ TransitionOutcome → Prop where
  | skips : Transits h c t time s host (s.stay host .skipped [])
  | unended {x : σ} {r : Report} (ends : s.buildFinal h t time host = (.error r, x)) :
      Transits h c t time s host (s.stay x .failed [r])
  | unprepared {x y : σ} {final : Option Envelope} {r : Report}
      (ends : s.buildFinal h t time host = (.ok final, x))
      (prepares : prepare h t time x = (.error r, y)) :
      Transits h c t time s host (s.stay y .failed [r])
  | unbegun {x y z : σ} {final : Option Envelope} {r : Report}
      (ends : s.buildFinal h t time host = (.ok final, x))
      (prepares : prepare h t time x = (.ok (), y))
      (begins : s.buildInitial h c t time y = (.error r, z)) :
      Transits h c t time s host (s.stay z .failed [r])
  | completes {x y z : σ} {final next : Option Envelope}
      (ends : s.buildFinal h t time host = (.ok final, x))
      (prepares : prepare h t time x = (.ok (), y))
      (begins : s.buildInitial h c t time y = (.ok next, z)) :
      Transits h c t time s host
        ⟨.completed, s.commit (t.target s.state) next, z, [],
          final.map fun e => (e, t.snapshotType)⟩

theorem transit_transits (h : Host σ) (c : Config) (t : Transition) (time : Millis) (s : Session)
    (host : σ) : Transits h c t time s host (s.transit h c t time host) := by
  unfold transit
  extract_lets isManual
  split
  · exact .skips
  split
  · exact .skips
  split
  case h_1 ends => exact .unended ends
  case h_2 ends =>
    split
    case h_1 prepares => exact .unprepared ends prepares
    case h_2 prepares =>
      split
      case h_1 begins => exact .unbegun ends prepares begins
      case h_2 begins => exact .completes ends prepares begins

theorem transition_transits (h : Host σ) (c : Config) (t : Transition) (time : Millis)
    (s : Session) (host : σ) :
    Transits h c t time s host (s.transition h c t time host) := by
  unfold transition
  split
  · exact .skips
  · exact transit_transits h c t time s host

/-- The final form that a transition has built is the one of the running envelope. -/
theorem closing_of_buildFinal {final : Option Envelope}
    (ends : s.buildFinal h t time host = (.ok final, x)) :
    ∃ closed : Option Closing, closed.map (·.source) = s.active ∧
      closed.map (·.final) = final ∧
      ∀ y ∈ closed, y.Built h ∧ y.transition = t ∧ y.time = time := by
  unfold buildFinal at ends
  cases running : s.active with
  | none =>
    simp only [running, Prod.mk.injEq, Except.ok.injEq] at ends
    exact ⟨none, rfl, ends.1, by simp⟩
  | some e =>
    simp only [running] at ends
    split at ends
    case h_2 => cases ends
    case h_1 f built =>
      simp only [Prod.mk.injEq, Except.ok.injEq] at ends
      refine ⟨some ⟨e, t, time, f⟩, rfl, ends.1, ?_⟩
      rintro y ⟨⟩
      exact ⟨⟨host, Attempt.outcome_eq_ok_iff.mp built⟩, rfl, rfl⟩

/-- A transition closes the running envelope whenever another takes its place, and sends what it
closed. -/
theorem Transits.closes {turn : Turn σ TransitionOutcome} (did : Transits h c t time s host turn) :
    ∃ closed : Option Closing,
      (closed.map (·.source)).toList ++ turn.session.active.toList =
        s.active.toList ++ turn.begun?.toList ∧
      turn.sent = closed.map Closing.sent ∧
      ∀ x ∈ closed, x.source ∈ s.active ∧ x.Built h ∧ x.call = .transition t time := by
  cases did with
  | skips | unended | unprepared | unbegun =>
    exact ⟨none, by simp [stay, Turn.begun?], rfl, by simp⟩
  | completes ends prepares begins =>
    obtain ⟨closed, source, final, built⟩ := closing_of_buildFinal ends
    refine ⟨closed, by simp [source, commit, Turn.begun?], ?_, ?_⟩
    · subst final
      cases closed with
      | none => rfl
      | some x =>
        obtain ⟨_, rfl, _⟩ := built x rfl
        rfl
    · rintro x rfl
      obtain ⟨made, rfl, rfl⟩ := built x rfl
      exact ⟨source.symm, made, rfl⟩

/-- A checkpoint sends what was built from the running envelope, and changes nothing. -/
theorem checkpoint_sketches (h : Host σ) (time : Millis) (s : Session) (host : σ) :
    (s.checkpoint h time host).session = s ∧
      ∀ sent ∈ (s.checkpoint h time host).sent, sent.2 = .periodic ∧
        ∃ e ∈ s.active, Sketch h e time sent.1 := by
  unfold checkpoint
  cases running : s.active with
  | none => exact ⟨rfl, by simp [stay]⟩
  | some e =>
    dsimp only
    split
    case h_2 => exact ⟨rfl, by simp [stay]⟩
    case h_1 f built =>
      refine ⟨rfl, ?_⟩
      rintro sent ⟨⟩
      exact ⟨rfl, e, rfl, host, Attempt.outcome_eq_ok_iff.mp built⟩

theorem checkpointBackground_sketches (h : Host σ) (time : Millis) (s : Session) (host : σ) :
    (s.checkpointBackground h time host).session = s ∧
      ∀ sent ∈ (s.checkpointBackground h time host).sent, sent.2 = .periodic ∧
        ∃ e ∈ s.active, Sketch h e time sent.1 := by
  unfold checkpointBackground
  split
  · exact checkpoint_sketches h time s host
  · exact ⟨rfl, by simp [stay]⟩

end Session

/-! ## Calls one after the other -/

/-- A session and its host, with all that was begun and sent so far. -/
structure Story (σ : Type) where
  session : Session
  host : σ
  begun : List Envelope
  sent : List (Envelope × SnapshotType)

namespace Story

variable {h : Host σ} {c : Config} {w : Story σ}

def record {α : Type} (w : Story σ) (turn : Turn σ α) (begun : Option Envelope) : Story σ :=
  ⟨turn.session, turn.host, w.begun ++ begun.toList, w.sent ++ turn.sent.toList⟩

/-- The story after a call. -/
def heed (h : Host σ) (c : Config) (w : Story σ) : Call → Story σ
  | .transition t time =>
    let turn := w.session.transition h c t time w.host
    w.record turn turn.begun?
  | .checkpoint time => w.record (w.session.checkpoint h time w.host) none
  | .checkpointBackground time => w.record (w.session.checkpointBackground h time w.host) none

/-- The story of a new process. -/
def start (h : Host σ) (c : Config) (state : ProcessState) (time : Millis) (host : σ) : Story σ :=
  let turn := Session.begin h c state time host
  record ⟨.initial state, host, [], []⟩ turn turn.begun?

/-- These are the ends of all envelopes that do not run any more, in the order in which the
envelopes began. -/
structure Closed (h : Host σ) (w : Story σ) (xs : List Closing) : Prop where
  order : w.begun = xs.map (·.source) ++ w.session.active.toList
  built : ∀ x ∈ xs, x.Built h

theorem Closed.record {turn : Turn σ TransitionOutcome} {t : Transition} {time : Millis}
    {xs : List Closing} (closed : w.Closed h xs)
    (did : Session.Transits h c t time w.session w.host turn) :
    ∃ ys : List Closing, (w.record turn turn.begun?).Closed h (xs ++ ys) ∧
      turn.sent.toList = ys.map Closing.sent ∧
      (ys.map Closing.call).Sublist [.transition t time] := by
  obtain ⟨last, order, sent, built⟩ := did.closes
  refine ⟨last.toList, ⟨?_, ?_⟩, ?_, ?_⟩
  · have sources : last.toList.map (·.source) = (last.map (·.source)).toList := by
      cases last <;> rfl
    rw [List.map_append, List.append_assoc, sources]
    exact (congrArg (· ++ turn.begun?.toList) closed.order).trans
      ((List.append_assoc _ _ _).trans (congrArg _ order.symm))
  · intro x member
    rcases List.mem_append.mp member with before | new
    · exact closed.built x before
    · exact (built x (Option.mem_toList.mp new)).2.1
  · cases last <;> simp [sent]
  · cases last with
    | none => exact List.nil_sublist _
    | some x =>
      obtain ⟨_, _, made⟩ := built x rfl
      rw [← made]
      exact List.Sublist.refl _

/-- A checkpoint closes nothing, and what it sends is no final form. -/
theorem heed_of_sketches {turn : Turn σ Bool} (same : turn.session = w.session)
    (sketch : ∀ sent ∈ turn.sent, sent.2 = .periodic) :
    (∀ xs, w.Closed h xs → (w.record turn none).Closed h xs) ∧
      turn.sent.toList.filter (·.2.isTerminal) = [] := by
  refine ⟨fun xs closed => ⟨?_, closed.built⟩, ?_⟩
  · simp only [record, same, Option.toList_none, List.append_nil]
    exact closed.order
  · rw [List.filter_eq_nil_iff]
    intro sent member
    rw [sketch sent (Option.mem_toList.mp member)]
    decide

theorem filter_sent (ys : List Closing) :
    (ys.map Closing.sent).filter (·.2.isTerminal) = ys.map Closing.sent := by
  rw [List.filter_eq_self]
  intro sent member
  obtain ⟨x, _, rfl⟩ := List.mem_map.mp member
  exact x.sent_isTerminal

/-- The final forms among what was sent are the ones of these ends, in the same order. -/
structure Ends (h : Host σ) (w : Story σ) (xs : List Closing) : Prop where
  closed : w.Closed h xs
  sent : w.sent.filter (·.2.isTerminal) = xs.map Closing.sent

theorem Ends.record {turn : Turn σ TransitionOutcome} {t : Transition} {time : Millis}
    {xs : List Closing} (ends : w.Ends h xs)
    (did : Session.Transits h c t time w.session w.host turn) :
    ∃ ys : List Closing, (w.record turn turn.begun?).Ends h (xs ++ ys) ∧
      (ys.map Closing.call).Sublist [.transition t time] := by
  obtain ⟨ys, closed, sent, made⟩ := ends.closed.record did
  refine ⟨ys, ⟨closed, ?_⟩, made⟩
  rw [Story.record, List.filter_append, ends.sent, sent, filter_sent, List.map_append]

theorem Ends.sketch {turn : Turn σ Bool} {xs : List Closing} (ends : w.Ends h xs)
    (same : turn.session = w.session) (sketch : ∀ sent ∈ turn.sent, sent.2 = .periodic) :
    (w.record turn none).Ends h xs := by
  obtain ⟨closed, nothing⟩ := heed_of_sketches (h := h) same sketch
  refine ⟨closed xs ends.closed, ?_⟩
  rw [Story.record, List.filter_append, ends.sent, nothing, List.append_nil]

theorem heed_ends {xs : List Closing} (call : Call) (ends : w.Ends h xs) :
    ∃ ys : List Closing, (w.heed h c call).Ends h (xs ++ ys) ∧
      (ys.map Closing.call).Sublist [call] := by
  cases call with
  | transition t time =>
    exact ends.record (Session.transition_transits h c t time w.session w.host)
  | checkpoint time =>
    obtain ⟨same, sketch⟩ := Session.checkpoint_sketches h time w.session w.host
    refine ⟨[], ?_, List.nil_sublist _⟩
    rw [List.append_nil]
    exact ends.sketch same fun sent member => (sketch sent member).1
  | checkpointBackground time =>
    obtain ⟨same, sketch⟩ := Session.checkpointBackground_sketches h time w.session w.host
    refine ⟨[], ?_, List.nil_sublist _⟩
    rw [List.append_nil]
    exact ends.sketch same fun sent member => (sketch sent member).1

/-- A new process has nothing to close and nothing to send. -/
theorem start_closed (h : Host σ) (c : Config) (state : ProcessState) (time : Millis) (host : σ) :
    (start h c state time host).Closed h [] ∧ (start h c state time host).sent = [] := by
  have did := Session.transition_transits h c (.initial state) time (.initial state) host
  obtain ⟨closed, order, sent, built⟩ := did.closes
  have nothing : closed = none := by
    rw [Option.eq_none_iff_forall_not_mem]
    intro x member
    exact Option.not_mem_none _ (built x member).1
  subst nothing
  refine ⟨⟨order.symm, by simp⟩, ?_⟩
  exact (List.nil_append _).trans (congrArg Option.toList sent)

/-- Along any calls the envelopes are closed in the order in which they began, each one once, by
some of the calls. -/
theorem heedAll_ends {xs : List Closing} (calls : List Call) (ends : w.Ends h xs) :
    ∃ ys : List Closing, (calls.foldl (heed h c) w).Ends h (xs ++ ys) ∧
      (ys.map Closing.call).Sublist calls := by
  induction calls generalizing w xs with
  | nil => exact ⟨[], by rwa [List.append_nil], List.nil_sublist _⟩
  | cons call calls ih =>
    obtain ⟨first, ends, made⟩ := heed_ends (c := c) call ends
    obtain ⟨rest, ends, others⟩ := ih ends
    refine ⟨first ++ rest, by rwa [← List.append_assoc], ?_⟩
    rw [List.map_append]
    exact made.append others

end Story

end Outbox
