import Mathlib.Data.List.Induction
import Mathlib.Data.List.Perm.Subperm
import Mathlib.Logic.Function.Iterate
import Outbox.Proofs.Succession
import Outbox.Rehearsal.Puppet

/-! # Calls from several threads

A transition looks at the hint, then waits for the state to be free, does all its work on it, frees
it, and only then hands over what it sends. A checkpoint looks at the state for a moment, builds,
and hands over. Between these stages other calls may go on. So what is sent may come in another
order than the envelopes ended in, but nothing is lost or sent twice.
-/

namespace Outbox

variable {σ : Type}

/-- How far a call has come. -/
inductive Errand where
  /-- It has not yet looked at anything. -/
  | coming (call : Call)
  /-- It waits until it has the state to itself. -/
  | waiting (t : Transition) (time : Millis)
  /-- It builds a checkpoint of the envelope that it found running. -/
  | holding (e : Envelope) (time : Millis)
  /-- It hands over what was built. -/
  | handing (e : Envelope) (type : SnapshotType)
  | ended
  deriving Repr, DecidableEq

namespace Errand

/-- What was built and is not yet handed over. -/
def load? : Errand → Option (Envelope × SnapshotType)
  | handing e type => some (e, type)
  | _ => none

/-- The transition that is still to be made. -/
def pending? : Errand → Option Call
  | coming (.transition t time) | waiting t time => some (.transition t time)
  | _ => none

def ofSent : Option (Envelope × SnapshotType) → Errand
  | some (e, type) => handing e type
  | none => ended

/-- The next stage of a call. -/
def go (h : Host σ) (c : Config) (w : Story σ) : Errand → Story σ × Errand
  | coming (.transition t time) =>
    if t.isRedundant w.session.hint then (w, ended) else (w, waiting t time)
  | coming (.checkpoint time) =>
    match w.session.active with
    | none => (w, ended)
    | some e => (w, holding e time)
  | coming (.checkpointBackground time) =>
    if w.session.state == .background && w.session.active.any Envelope.isBackground then
      (w, coming (.checkpoint time))
    else (w, ended)
  | waiting t time =>
    let turn := w.session.transit h c t time w.host
    (w.record { turn with sent := none } turn.begun?, ofSent turn.sent)
  | holding e time =>
    let (answer, host) := h.buildFinal ⟨e, time, .periodic⟩ w.host
    match answer.outcome BuildError.text with
    | .ok snapshot => ({ w with host }, handing snapshot .periodic)
    | .error _ => ({ w with host }, ended)
  | handing e type => ({ w with sent := w.sent ++ [(e, type)] }, ended)
  | ended => (w, ended)

/-- All that a stage of a call can do. -/
inductive Goes (h : Host σ) (c : Config) (w : Story σ) : Errand → Story σ → Errand → Prop where
  /-- It goes on or gives up, and nothing else happens. -/
  | passes {a b : Errand} (light : a.load? = none) (still : b.load? = none)
      (fewer : ∀ call ∈ b.pending?, call ∈ a.pending?) (elsewhere : ∀ e time, b ≠ .holding e time) :
      Goes h c w a w b
  | looks {e : Envelope} {time : Millis} (active : w.session.active = some e) :
      Goes h c w (coming (.checkpoint time)) w (holding e time)
  | transits {t : Transition} {time : Millis} {turn : Turn σ TransitionOutcome}
      (did : Session.Transits h c t time w.session w.host turn) :
      Goes h c w (waiting t time) (w.record { turn with sent := none } turn.begun?)
        (ofSent turn.sent)
  | sketches {e snapshot : Envelope} {time : Millis} (x : σ) (built : Sketch h e time snapshot) :
      Goes h c w (holding e time) { w with host := x } (handing snapshot .periodic)
  | fails {e : Envelope} {time : Millis} (x : σ) :
      Goes h c w (holding e time) { w with host := x } ended
  | hands {e : Envelope} {type : SnapshotType} :
      Goes h c w (handing e type) { w with sent := w.sent ++ [(e, type)] } ended

theorem go_goes (h : Host σ) (c : Config) (w : Story σ) (a : Errand) :
    Goes h c w a (a.go h c w).1 (a.go h c w).2 := by
  cases a with
  | coming call =>
    cases call with
    | transition t time =>
      simp only [go]
      split <;> exact .passes rfl rfl (by simp [pending?]) (by simp)
    | checkpoint time =>
      simp only [go]
      split
      · exact .passes rfl rfl (by simp [pending?]) (by simp)
      case h_2 active => exact .looks active
    | checkpointBackground time =>
      simp only [go]
      split <;> exact .passes rfl rfl (by simp [pending?]) (by simp)
  | waiting t time => exact .transits (Session.transit_transits h c t time w.session w.host)
  | holding e time =>
    simp only [go]
    split
    case h_1 snapshot built => exact .sketches _ ⟨w.host, Attempt.outcome_eq_ok_iff.mp built⟩
    case h_2 => exact .fails _
  | handing e type => exact .hands
  | ended => exact .passes rfl rfl (by simp [pending?, go]) (by simp [go])

/-- The next stage of a call that nobody interrupts. -/
def goOn (h : Host σ) (c : Config) (x : Story σ × Errand) : Story σ × Errand := x.2.go h c x.1

theorem goOn_ended (h : Host σ) (c : Config) (w : Story σ) (n : Nat) :
    (goOn h c)^[n] (w, ended) = (w, ended) :=
  Function.iterate_fixed rfl n

theorem goOn_ofSent (h : Host σ) (c : Config) (w : Story σ)
    (sent : Option (Envelope × SnapshotType)) :
    (goOn h c)^[2] (w, ofSent sent) = ({ w with sent := w.sent ++ sent.toList }, ended) := by
  cases sent with
  | none => simp [ofSent, goOn_ended]
  | some x => rfl

theorem goOn_checkpoint (h : Host σ) (c : Config) (w : Story σ) (time : Millis) :
    (goOn h c)^[3] (w, coming (.checkpoint time)) =
      (w.record (w.session.checkpoint h time w.host) none, ended) := by
  rw [Function.iterate_succ_apply, goOn, go, Session.checkpoint]
  cases w.session.active with
  | none =>
    rw [goOn_ended]
    simp [Story.record, Session.stay]
  | some e =>
    rw [Function.iterate_succ_apply, goOn, go]
    cases answer : (h.buildFinal ⟨e, time, .periodic⟩ w.host).1.outcome BuildError.text with
    | error cause => simp [answer, goOn, go, Story.record, Session.stay]
    | ok snapshot => simp [answer, goOn, go, Story.record]

/-- A call that nobody interrupts does what it does alone. -/
theorem go_uninterrupted (h : Host σ) (c : Config) (w : Story σ) (call : Call) :
    (goOn h c)^[4] (w, coming call) = (w.heed h c call, ended) := by
  rw [Function.iterate_succ_apply]
  cases call with
  | transition t time =>
    rw [goOn, go, Story.heed, Session.transition]
    split
    · rw [goOn_ended]
      simp [Story.record, Session.stay, Turn.begun?]
    · rw [Function.iterate_succ_apply, goOn, go, goOn_ofSent]
      simp [Story.record, Turn.begun?]
  | checkpoint time =>
    rw [← Function.iterate_succ_apply, Function.iterate_succ_apply', goOn_checkpoint]
    rfl
  | checkpointBackground time =>
    rw [goOn, go, Story.heed, Session.checkpointBackground]
    split
    · exact goOn_checkpoint h c w time
    · rw [goOn_ended]
      simp [Story.record, Session.stay]

theorem load?_ofSent (sent : Option (Envelope × SnapshotType)) : (ofSent sent).load? = sent := by
  cases sent <;> rfl

theorem pending?_ofSent (sent : Option (Envelope × SnapshotType)) :
    (ofSent sent).pending? = none := by
  cases sent <;> rfl

theorem ofSent_ne_holding (sent : Option (Envelope × SnapshotType)) (e : Envelope)
    (time : Millis) : ofSent sent ≠ .holding e time := by
  cases sent <;> nofun

/-- A stage closes at most the running envelope. What it builds is the final form of that, or a
checkpoint of the envelope that it held. -/
theorem Goes.closes {h : Host σ} {c : Config} {w u : Story σ} {a b : Errand} {xs : List Closing}
    (goes : Goes h c w a u b) (closed : w.Closed h xs) :
    ∃ (ys : List Closing) (new : List (Envelope × SnapshotType)), u.Closed h (xs ++ ys) ∧
      u.sent ++ b.load?.toList = w.sent ++ a.load?.toList ++ new ∧
      new.filter (·.2.isTerminal) = ys.map Closing.sent ∧
      (∀ x ∈ new, x.2 = .periodic → ∃ e time, a = .holding e time ∧ Sketch h e time x.1) ∧
      (ys.map Closing.call ++ b.pending?.toList).Sublist a.pending?.toList := by
  cases goes with
  | passes light still fewer elsewhere =>
    refine ⟨[], [], by rwa [List.append_nil], by simp [light, still], rfl, by simp, ?_⟩
    cases later : b.pending? with
    | none => exact List.nil_sublist _
    | some call => rw [fewer call later]; exact List.Sublist.refl _
  | looks active =>
    exact ⟨[], [], by rwa [List.append_nil], by simp [load?], rfl, by simp, by simp [pending?]⟩
  | @transits t time turn did =>
    obtain ⟨ys, closes, sent, made⟩ := closed.record did
    refine ⟨ys, turn.sent.toList, ⟨closes.order, closes.built⟩, ?_, ?_, ?_, ?_⟩
    · rw [load?_ofSent]
      simp [Story.record, load?]
    · rw [sent, Story.filter_sent]
    · intro x member periodic
      rw [sent] at member
      obtain ⟨y, _, rfl⟩ := List.mem_map.mp member
      have terminal := y.sent_isTerminal
      rw [periodic] at terminal
      cases terminal
    · rw [pending?_ofSent, Option.toList_none, List.append_nil]
      exact made
  | @sketches e snapshot time x built =>
    refine ⟨[], [(snapshot, .periodic)], by rw [List.append_nil]; exact ⟨closed.1, closed.2⟩,
      by simp [load?], rfl, ?_, by simp [pending?]⟩
    intro y member _
    rw [List.mem_singleton.mp member]
    exact ⟨e, time, rfl, built⟩
  | fails x =>
    exact ⟨[], [], by rw [List.append_nil]; exact ⟨closed.1, closed.2⟩, by simp [load?], rfl,
      by simp, by simp [pending?]⟩
  | hands =>
    exact ⟨[], [], by rw [List.append_nil]; exact ⟨closed.1, closed.2⟩, by simp [load?], rfl,
      by simp, by simp [pending?]⟩

/-- Only a transition that has the state to itself changes the session. -/
theorem Goes.session {h : Host σ} {c : Config} {w u : Story σ} {a b : Errand}
    (goes : Goes h c w a u b) (other : ∀ t time, a ≠ .waiting t time) : u.session = w.session := by
  cases goes with
  | transits did => exact absurd rfl (other _ _)
  | passes | looks | sketches | fails | hands => rfl

end Errand

/-- A session with the calls under way. -/
structure Crowd (σ : Type) where
  story : Story σ
  errands : List Errand

/-- What can happen next. -/
inductive Beat where
  | come (call : Call)
  /-- The call with this number goes on. -/
  | go (i : Nat)
  deriving Repr, DecidableEq

def Beat.call? : Beat → Option Call
  | come call => some call
  | go _ => none

namespace Crowd

open scoped List

variable {h : Host σ} {c : Config} {w first : Crowd σ} {beats : List Beat} {xs : List Closing}

/-- A new process. -/
def start (h : Host σ) (c : Config) (state : ProcessState) (time : Millis) (host : σ) : Crowd σ :=
  ⟨.start h c state time host, []⟩

def step (h : Host σ) (c : Config) (w : Crowd σ) : Beat → Crowd σ
  | .come call => { w with errands := w.errands ++ [.coming call] }
  | .go i =>
    match w.errands[i]? with
    | none => w
    | some a => ⟨(a.go h c w.story).1, w.errands.set i (a.go h c w.story).2⟩

def run (h : Host σ) (c : Config) (w : Crowd σ) (beats : List Beat) : Crowd σ :=
  beats.foldl (step h c) w

theorem run_concat (beats : List Beat) (beat : Beat) :
    w.run h c (beats ++ [beat]) = (w.run h c beats).step h c beat := by
  rw [run, run, List.foldl_append]
  rfl

/-- What was handed over, and what will be. -/
def out (w : Crowd σ) : List (Envelope × SnapshotType) :=
  w.story.sent ++ w.errands.filterMap Errand.load?

/-- One of the calls found this envelope running when it looked for one to make a checkpoint of. -/
def Looked (h : Host σ) (c : Config) (first : Crowd σ) (beats : List Beat) (e : Envelope)
    (time : Millis) : Prop :=
  ∃ before i after, beats = before ++ .go i :: after ∧
    (first.run h c before).errands[i]? = some (.coming (.checkpoint time)) ∧
    (first.run h c before).story.session.active = some e

theorem Looked.later {e : Envelope} {time : Millis} (looked : Looked h c first beats e time)
    (beat : Beat) : Looked h c first (beats ++ [beat]) e time := by
  obtain ⟨before, i, after, rfl, found⟩ := looked
  exact ⟨before, i, after ++ [beat], by simp, found⟩

theorem filterMap_set_perm {α β : Type} {f : α → Option β} {es : List α} {i : Nat} {a : α}
    (at_ : es[i]? = some a) (b : α) :
    ((es.set i b).filterMap f ++ (f a).toList).Perm (es.filterMap f ++ (f b).toList) := by
  obtain ⟨inside, rfl⟩ := List.getElem?_eq_some_iff.mp at_
  have put := (List.set_perm_cons_eraseIdx inside b).filterMap f
  have had := (List.getElem_cons_eraseIdx_perm inside).filterMap f
  rw [← List.singleton_append, List.filterMap_append] at put had
  have one (x : α) : [x].filterMap f = (f x).toList := by cases found : f x <;> simp [found]
  rw [one] at put had
  calc (es.set i b).filterMap f ++ (f es[i]).toList
    _ ~ (f b).toList ++ (es.eraseIdx i).filterMap f ++ (f es[i]).toList := put.append_right _
    _ ~ (f b).toList ++ ((f es[i]).toList ++ (es.eraseIdx i).filterMap f) := by
      rw [List.append_assoc]
      exact List.perm_append_comm.append_left _
    _ ~ (f b).toList ++ es.filterMap f := had.append_left _
    _ ~ es.filterMap f ++ (f b).toList := List.perm_append_comm

/-- These are the ends of all envelopes that do not run any more. Their final forms are handed over
or will be, each one once; and every checkpoint is of an envelope that was found running. -/
structure Ends (h : Host σ) (c : Config) (first : Crowd σ) (beats : List Beat)
    (xs : List Closing) : Prop where
  closed : (first.run h c beats).story.Closed h xs
  out : ((first.run h c beats).out.filter (·.2.isTerminal)).Perm (xs.map Closing.sent)
  made : (xs.map Closing.call ++ (first.run h c beats).errands.filterMap Errand.pending?).Subperm
    (beats.filterMap Beat.call?)
  held : ∀ e time, .holding e time ∈ (first.run h c beats).errands →
    Looked h c first beats e time
  drawn : ∀ x ∈ (first.run h c beats).out, x.2 = .periodic →
    ∃ e time, Looked h c first beats e time ∧ Sketch h e time x.1

theorem start_ends (h : Host σ) (c : Config) (state : ProcessState) (time : Millis) (host : σ) :
    Ends h c (start h c state time host) [] [] := by
  obtain ⟨closed, silent⟩ := Story.start_closed h c state time host
  have quiet : ((start h c state time host).run h c []).out = [] := by
    rw [out, run, List.foldl_nil, start, silent]
    rfl
  exact ⟨closed, by rw [quiet]; rfl, List.Subperm.refl _, by simp [run, start], by simp [quiet]⟩

theorem Ends.come (ends : Ends h c first beats xs) (call : Call) :
    Ends h c first (beats ++ [.come call]) xs := by
  have after := run_concat (h := h) (c := c) (w := first) beats (.come call)
  have outs : (first.run h c (beats ++ [.come call])).out = (first.run h c beats).out := by
    rw [after, Crowd.out, Crowd.out, step, List.filterMap_append]
    simp [Errand.load?]
  refine ⟨by rw [after]; exact ends.closed, by rw [outs]; exact ends.out, ?_, ?_, ?_⟩
  · rw [after, step, List.filterMap_append, List.filterMap_append, ← List.append_assoc]
    have one : ([Errand.coming call].filterMap Errand.pending?).Sublist
        ([Beat.come call].filterMap Beat.call?) := by
      cases call <;> simp [Errand.pending?, Beat.call?]
    exact ends.made.append one.subperm
  · intro e time member
    rw [after, step] at member
    have before : .holding e time ∈ (first.run h c beats).errands := by simpa using member
    exact (ends.held e time before).later _
  · intro x member periodic
    rw [outs] at member
    obtain ⟨e, time, looked, sketch⟩ := ends.drawn x member periodic
    exact ⟨e, time, looked.later _, sketch⟩

theorem calls_go (beats : List Beat) (i : Nat) :
    (beats ++ [Beat.go i]).filterMap Beat.call? = beats.filterMap Beat.call? := by
  rw [List.filterMap_append, List.filterMap_cons_none rfl, List.filterMap_nil, List.append_nil]

/-- A stage that is not there changes nothing. -/
theorem Ends.still (ends : Ends h c first beats xs) {i : Nat}
    (same : first.run h c (beats ++ [.go i]) = first.run h c beats) :
    Ends h c first (beats ++ [.go i]) xs where
  closed := same ▸ ends.closed
  out := same ▸ ends.out
  made := by rw [same, calls_go]; exact ends.made
  held e time member := (ends.held e time (same ▸ member)).later _
  drawn x member periodic := by
    obtain ⟨e, time, looked, sketch⟩ := ends.drawn x (same ▸ member) periodic
    exact ⟨e, time, looked.later _, sketch⟩

/-- What a stage holds was found running when it looked. -/
theorem Ends.held_go (ends : Ends h c first beats xs) {i : Nat} {a b : Errand} {u : Story σ}
    (at_ : (first.run h c beats).errands[i]? = some a)
    (goes : Errand.Goes h c (first.run h c beats).story a u b) {e : Envelope} {time : Millis}
    (member : .holding e time ∈ (first.run h c beats).errands.set i b) :
    Looked h c first (beats ++ [.go i]) e time := by
  rcases List.mem_or_eq_of_mem_set member with before | new
  · exact (ends.held e time before).later _
  · cases goes with
    | passes light still fewer elsewhere => exact absurd new.symm (elsewhere e time)
    | looks active =>
      cases new
      exact ⟨beats, i, [], rfl, at_, active⟩
    | transits did => exact absurd new.symm (Errand.ofSent_ne_holding _ e time)
    | sketches | fails | hands => cases new

theorem Ends.go (ends : Ends h c first beats xs) (i : Nat) :
    ∃ ys : List Closing, Ends h c first (beats ++ [.go i]) (xs ++ ys) := by
  have stepped := run_concat (h := h) (c := c) (w := first) beats (.go i)
  cases at_ : (first.run h c beats).errands[i]? with
  | none =>
    refine ⟨[], ?_⟩
    rw [List.append_nil]
    exact ends.still (by rw [stepped, step, at_])
  | some a =>
    have goes := Errand.go_goes h c (first.run h c beats).story a
    have after : first.run h c (beats ++ [.go i]) =
        ⟨(a.go h c (first.run h c beats).story).1,
          (first.run h c beats).errands.set i (a.go h c (first.run h c beats).story).2⟩ := by
      rw [stepped, step, at_]
    generalize a.go h c (first.run h c beats).story = result at goes after
    obtain ⟨u, b⟩ := result
    obtain ⟨ys, new, closed, total, final, sketches, made⟩ := goes.closes ends.closed
    have loads := filterMap_set_perm (f := Errand.load?) at_ b
    have calls := filterMap_set_perm (f := Errand.pending?) at_ b
    have outs : (first.run h c (beats ++ [.go i])).out.Perm
        ((first.run h c beats).out ++ new) := by
      rw [List.perm_iff_count]
      intro x
      have one := loads.count_eq x
      have two := congrArg (List.count x) total
      rw [after, Crowd.out, Crowd.out]
      simp only [List.count_append] at one two ⊢
      omega
    refine ⟨ys, ⟨by rw [after]; exact closed, ?_, ?_, ?_, ?_⟩⟩
    · rw [List.map_append, ← final]
      refine (outs.filter _).trans ?_
      rw [List.filter_append]
      exact ends.out.append_right _
    · rw [after, calls_go, List.subperm_iff_count]
      intro x
      have before := List.subperm_iff_count.mp ends.made x
      have one := calls.count_eq x
      have two := made.subperm.count_le x
      simp only [List.map_append, List.count_append] at before one two ⊢
      omega
    · intro e time member
      rw [after] at member
      exact ends.held_go at_ goes member
    · intro x member periodic
      rcases List.mem_append.mp (outs.subset member) with before | made
      · obtain ⟨e, time, looked, sketch⟩ := ends.drawn x before periodic
        exact ⟨e, time, looked.later _, sketch⟩
      · obtain ⟨e, time, rfl, sketch⟩ := sketches x made periodic
        exact ⟨e, time, (ends.held e time (List.mem_of_getElem? at_)).later _, sketch⟩

/-- However the calls interleave, the envelopes are closed in the order in which they began, each
one once. -/
theorem run_ends (h : Host σ) (c : Config) (state : ProcessState) (time : Millis) (host : σ)
    (beats : List Beat) :
    ∃ xs : List Closing, Ends h c (start h c state time host) beats xs := by
  induction beats using List.reverseRecOn with
  | nil => exact ⟨[], start_ends h c state time host⟩
  | append_singleton beats beat ih =>
    obtain ⟨xs, ends⟩ := ih
    cases beat with
    | come call => exact ⟨xs, ends.come call⟩
    | go i =>
      obtain ⟨ys, ends⟩ := ends.go i
      exact ⟨xs ++ ys, ends⟩

/-- Nothing is left to hand over when all calls have ended. -/
theorem out_of_ended (ended : ∀ a ∈ w.errands, a = .ended) : w.out = w.story.sent := by
  have nothing : w.errands.filterMap Errand.load? = [] := by
    rw [List.filterMap_eq_nil_iff]
    intro a member
    rw [ended a member]
    rfl
  rw [out, nothing, List.append_nil]

/-- Only a transition that has the state to itself changes the session. -/
theorem step_session {beat : Beat}
    (other : ∀ i t time, beat = .go i → w.errands[i]? ≠ some (.waiting t time)) :
    (w.step h c beat).story.session = w.story.session := by
  cases beat with
  | come call => rfl
  | go i =>
    cases at_ : w.errands[i]? with
    | none => rw [step, at_]
    | some a =>
      rw [step, at_]
      refine (Errand.go_goes h c w.story a).session fun t time same => ?_
      exact other i t time rfl (same ▸ at_)

end Crowd

namespace Session

/-- Each envelope is ended exactly once.

Whatever the host does, and whatever is called: all envelopes that were begun are closed in the
order in which they began, but for the one that still runs. One final form of each of them is sent,
in that order, as a crash exactly if a crash ended it, and each is the deed of another call. A
checkpoint is of the running envelope and changes nothing.

Where calls of several threads interleave, the same final forms are sent in some order. Every
checkpoint is then of the envelope that ran when the call looked, and only a transition that has the
state to itself changes the session. -/
theorem ended_once (h : Host σ) (c : Config) (state : ProcessState) (time : Millis) (host : σ) :
    (∀ calls : List Call, ∃ xs : List Closing,
      let w := calls.foldl (Story.heed h c) (Story.start h c state time host)
      w.begun = xs.map (·.source) ++ w.session.active.toList ∧
      w.sent.filter (·.2.isTerminal) = xs.map Closing.sent ∧
      (∀ x ∈ xs, x.Built h ∧ (x.sent.2 = .crash ↔ ∃ id, x.transition = .crash id)) ∧
      (xs.map Closing.call).Sublist calls) ∧
    (∀ (s : Session) (time : Millis) (x : σ),
      ∀ turn ∈ [s.checkpoint h time x, s.checkpointBackground h time x],
        turn.session = s ∧ ∀ sent ∈ turn.sent, sent.2 = .periodic ∧
          ∃ e ∈ s.active, Sketch h e time sent.1) ∧
    (∀ beats : List Beat, ∃ xs : List Closing,
      let first := Crowd.start h c state time host
      let w := first.run h c beats
      w.story.begun = xs.map (·.source) ++ w.story.session.active.toList ∧
      (w.out.filter (·.2.isTerminal)).Perm (xs.map Closing.sent) ∧
      ((∀ a ∈ w.errands, a = .ended) →
        (w.story.sent.filter (·.2.isTerminal)).Perm (xs.map Closing.sent)) ∧
      (∀ x ∈ xs, x.Built h ∧ (x.sent.2 = .crash ↔ ∃ id, x.transition = .crash id)) ∧
      (xs.map Closing.call).Subperm (beats.filterMap Beat.call?) ∧
      (∀ x ∈ w.story.sent, x.2 = .periodic →
        ∃ e time, Crowd.Looked h c first beats e time ∧ Sketch h e time x.1) ∧
      ∀ beat, (∀ i t time, beat = .go i → w.errands[i]? ≠ some (.waiting t time)) →
        (w.step h c beat).story.session = w.story.session) := by
  refine ⟨fun calls => ?_, fun s time x turn member => ?_, fun beats => ?_⟩
  · obtain ⟨closed, silent⟩ := Story.start_closed h c state time host
    have before : (Story.start h c state time host).Ends h [] := ⟨closed, by rw [silent]; rfl⟩
    obtain ⟨xs, ends, made⟩ := Story.heedAll_ends (c := c) calls before
    rw [List.nil_append] at ends
    exact ⟨xs, ends.closed.order, ends.sent,
      fun x member => ⟨ends.closed.built x member, x.sent_eq_crash_iff⟩, made⟩
  · simp only [List.mem_cons, List.not_mem_nil, or_false] at member
    rcases member with rfl | rfl
    · exact checkpoint_sketches h time s x
    · exact checkpointBackground_sketches h time s x
  · obtain ⟨xs, ends⟩ := Crowd.run_ends h c state time host beats
    refine ⟨xs, ends.closed.order, ends.out, fun ended => ?_,
      fun x member => ⟨ends.closed.built x member, x.sent_eq_crash_iff⟩, ?_, ?_,
      fun beat => Crowd.step_session⟩
    · rw [← Crowd.out_of_ended ended]
      exact ends.out
    · refine .trans ?_ ends.made
      exact (List.sublist_append_left _ _).subperm
    · intro x member
      exact ends.drawn x (List.mem_append_left _ member)

/-- A call to the background has ended the first envelope, and a call to the foreground overtakes it
before it hands over what it built. -/
def overtaken : List Beat :=
  [.come (.transition .background 10), .come (.transition (.foreground false) 20), .go 0, .go 0,
    .go 1, .go 1, .go 1, .go 0]

/-- The final forms come in another order than the envelopes ended in. -/
theorem ended_once_of_overtaken :
    let w := (Crowd.start Puppet.host .default .foreground 0 .fresh).run Puppet.host .default
      overtaken
    (∀ a ∈ w.errands, a = .ended) ∧
      w.story.begun.map (·.id) = ["session-1", "background-1", "session-2"] ∧
      w.story.sent.map (·.1.id) = ["background-1", "session-1"] ∧
      ∃ xs : List Closing,
        w.story.begun = xs.map (·.source) ++ w.story.session.active.toList ∧
        (w.story.sent.filter (·.2.isTerminal)).Perm (xs.map Closing.sent) ∧
        (w.step Puppet.host .default (.come (.checkpoint 30))).story.session =
          w.story.session := by
  intro w
  have ended : ∀ a ∈ w.errands, a = .ended := by decide +kernel
  obtain ⟨xs, order, _, sent, _, _, _, same⟩ :=
    (ended_once Puppet.host .default .foreground 0 .fresh).2.2 overtaken
  exact ⟨ended, by decide +kernel, by decide +kernel, xs, order, sent ended,
    same (.come (.checkpoint 30)) fun i t time come => by cases come⟩

end Session

end Outbox
