import Mathlib.Data.List.Nodup
import Mathlib.Data.List.Range
import Outbox.Proofs.Succession
import Outbox.Rehearsal.Puppet

/-! # The hint only saves the wait

A transition looks at the hint, which it may do at any time. If there is something to do, it waits
until it has the state to itself, lets the host build, writes the new state, sets the hint, and
leaves. So the hint may be old when another transition looks at it. But it changes at one moment,
and what is skipped before that moment would have been skipped had it come before the transition
that sets the hint. In the order of these moments the transitions could as well have come one after
the other, with no hint to look at.
-/

namespace Outbox

variable {σ : Type}

/-! ## A host that is watched -/

/-- What a host is asked for. -/
inductive HostCall where
  | buildInitial (p : InitialParams)
  | buildFinal (p : FinalParams)
  | prepare (time : Millis) (clearUser : Bool)
  deriving Repr, DecidableEq

/-- The same host, with a list of all that it was asked for. -/
def Host.watched (h : Host σ) : Host (σ × List HostCall) where
  buildInitial p x :=
    ((h.buildInitial p x.1).1, (h.buildInitial p x.1).2, x.2 ++ [.buildInitial p])
  buildFinal p x := ((h.buildFinal p x.1).1, (h.buildFinal p x.1).2, x.2 ++ [.buildFinal p])
  prepare time clearUser x :=
    ((h.prepare time clearUser x.1).1, (h.prepare time clearUser x.1).2,
      x.2 ++ [.prepare time clearUser])

/-- What a call did, but for the list of what the host was asked for. -/
def Turn.unwatched {α : Type} (turn : Turn (σ × List HostCall) α) : Turn σ α :=
  ⟨turn.result, turn.session, turn.host.1, turn.reports, turn.sent⟩

namespace Session

variable {h : Host σ} {c : Config} {t : Transition} {time : Millis} {s : Session}
  {x : σ × List HostCall}

theorem buildFinal_watched :
    s.buildFinal h t time x.1 =
      ((s.buildFinal h.watched t time x).1, (s.buildFinal h.watched t time x).2.1) := by
  unfold buildFinal
  cases s.active with
  | none => rfl
  | some e =>
    simp only [Host.watched]
    cases (h.buildFinal ⟨e, time, t.endReason⟩ x.1).1.outcome BuildError.text <;> rfl

theorem prepare_watched :
    prepare h t time x.1 =
      ((prepare h.watched t time x).1, (prepare h.watched t time x).2.1) := by
  simp only [prepare, Host.watched]
  cases (h.prepare time t.clearsUser x.1).1.outcome BoundaryError.text <;> rfl

theorem buildInitial_watched :
    s.buildInitial h c t time x.1 =
      ((s.buildInitial h.watched c t time x).1, (s.buildInitial h.watched c t time x).2.1) := by
  simp only [buildInitial, Host.watched]
  split
  · cases (h.buildInitial _ x.1).1.outcome BuildError.text <;> rfl
  · rfl

/-- A host does the same when it is watched. -/
theorem transit_watched (h : Host σ) (c : Config) (t : Transition) (time : Millis) (s : Session)
    (x : σ × List HostCall) :
    (s.transit h.watched c t time x).unwatched = s.transit h c t time x.1 := by
  unfold transit
  extract_lets isManual
  split
  · rfl
  split
  · rfl
  rw [buildFinal_watched]
  rcases s.buildFinal h.watched t time x with ⟨⟨report⟩ | ⟨final⟩, x⟩
  · rfl
  simp only
  rw [prepare_watched]
  rcases prepare h.watched t time x with ⟨⟨report⟩ | ⟨⟩, x⟩
  · rfl
  simp only
  rw [buildInitial_watched]
  rcases s.buildInitial h.watched c t time x with ⟨⟨report⟩ | ⟨next⟩, x⟩ <;> rfl

/-- A transition that is not completed leaves the session as it was. -/
theorem transit_session {x : σ} (other : (s.transit h c t time x).result ≠ .completed) :
    (s.transit h c t time x).session = s := by
  have did := transit_transits h c t time s x
  generalize s.transit h c t time x = turn at other did
  cases did with
  | skips | unended | unprepared | unbegun => rfl
  | completes => exact absurd rfl other

/-- A transition that is completed sets the hint. -/
theorem transit_hint {x : σ} (right : s.hint = s.state) :
    (s.transit h c t time x).session.hint = (s.transit h c t time x).session.state := by
  have did := transit_transits h c t time s x
  generalize s.transit h c t time x = turn at did
  cases did with
  | skips | unended | unprepared | unbegun => exact right
  | completes => rfl

theorem transit_of_redundant {x : σ} (redundant : t.isRedundant s.state = true) :
    s.transit h c t time x = s.stay x .skipped [] := by
  unfold transit
  extract_lets isManual
  rw [if_pos redundant]

end Session

/-- The session that a transition committed. -/
def Turn.commit? (turn : Turn σ TransitionOutcome) : Option Session :=
  if turn.result = .completed then some turn.session else none

/-! ## Transitions one after the other -/

/-- A transition that is asked for, with the number of the call. -/
structure NumberedCall where
  number : Nat
  transition : Transition
  time : Millis
  deriving Repr, DecidableEq

/-- A session and its host, with the sessions that were committed and the outcomes of the calls. -/
structure Series (σ : Type) where
  session : Session
  host : σ
  commits : List Session
  outcomes : List (Nat × TransitionOutcome)

namespace Series

/-- Makes a transition without a look at the hint. -/
def serve (h : Host σ) (c : Config) (r : Series σ) (q : NumberedCall) : Series σ :=
  let turn := r.session.transit h c q.transition q.time r.host
  ⟨turn.session, turn.host, r.commits ++ turn.commit?.toList,
    r.outcomes ++ [(q.number, turn.result)]⟩

def serveAll (h : Host σ) (c : Config) (r : Series σ) (qs : List NumberedCall) : Series σ :=
  qs.foldl (serve h c) r

theorem serveAll_append (h : Host σ) (c : Config) (r : Series σ) (qs others : List NumberedCall) :
    r.serveAll h c (qs ++ others) = (r.serveAll h c qs).serveAll h c others :=
  List.foldl_append

theorem numbers_serveAll (h : Host σ) (c : Config) (r : Series σ) (qs : List NumberedCall) :
    (r.serveAll h c qs).outcomes.map Prod.fst = r.outcomes.map Prod.fst ++ qs.map (·.number) := by
  induction qs generalizing r with
  | nil => simp [serveAll]
  | cons q qs ih =>
    refine (ih (r.serve h c q)).trans ?_
    simp [serve]

end Series

/-! ## Transitions of several threads -/

/-- How far a transition has come. -/
inductive Progress where
  /-- It has not yet looked at the hint. -/
  | coming
  /-- It waits until it has the state to itself. -/
  | waiting
  /-- It has the state to itself. -/
  | holding
  /-- The host has built, and this is what the session will be. -/
  | built (after : Session)
  /-- The state is written, and the hint is not yet set. -/
  | written (hint : ProcessState)
  /-- It has only to leave the state to others. -/
  | leaving (outcome : TransitionOutcome)
  | returned (outcome : TransitionOutcome)
  deriving Repr, DecidableEq

namespace Progress

/-- The outcome, as soon as it is certain. -/
def outcome? : Progress → Option TransitionOutcome
  | leaving outcome | returned outcome => some outcome
  | _ => none

/-- It has the state to itself. -/
def isInside : Progress → Bool
  | holding | built _ | written _ | leaving _ => true
  | coming | waiting | returned _ => false

end Progress

/-- A transition under way. -/
structure Passage where
  transition : Transition
  time : Millis
  progress : Progress
  deriving Repr, DecidableEq

/-- A session and its host, with the transitions under way. -/
structure Contest (σ : Type) where
  session : Session
  host : σ
  /-- The sessions that were committed. -/
  commits : List Session
  /-- The call that has the state to itself. -/
  holder : Option Nat
  passages : List Passage

namespace Contest

/-- What can happen next. -/
inductive Event where
  | come (t : Transition) (time : Millis)
  /-- The call with this number goes on. -/
  | go (i : Nat)
  deriving Repr, DecidableEq

def put (w : Contest σ) (i : Nat) (x : Passage) (p : Progress) : Contest σ :=
  { w with passages := w.passages.set i { x with progress := p } }

/-- The next stage of a transition. -/
def goOn (h : Host σ) (c : Config) (w : Contest σ) (i : Nat) (x : Passage) : Contest σ :=
  match x.progress with
  | .coming =>
    if x.transition.isRedundant w.session.hint then w.put i x (.returned .skipped)
    else w.put i x .waiting
  | .waiting =>
    match w.holder with
    | none => { w.put i x .holding with holder := some i }
    | some _ => w
  | .holding =>
    let turn := w.session.transit h c x.transition x.time w.host
    let next := if turn.result = .completed then .built turn.session else .leaving turn.result
    { w.put i x next with host := turn.host }
  | .built after =>
    { w.put i x (.written after.hint) with
      session := { after with hint := w.session.hint }
      commits := w.commits ++ [after] }
  | .written hint =>
    { w.put i x (.leaving .completed) with session := { w.session with hint } }
  | .leaving outcome => { w.put i x (.returned outcome) with holder := none }
  | .returned _ => w

def step (h : Host σ) (c : Config) (w : Contest σ) : Event → Contest σ
  | .come t time => { w with passages := w.passages ++ [⟨t, time, .coming⟩] }
  | .go i =>
    match w.passages[i]? with
    | none => w
    | some x => w.goOn h c i x

def run (h : Host σ) (c : Config) (w : Contest σ) (events : List Event) : Contest σ :=
  events.foldl (step h c) w

/-- A new process. -/
def start (h : Host σ) (c : Config) (state : ProcessState) (time : Millis) (host : σ) :
    Contest σ :=
  let turn := Session.begin h c state time host
  ⟨turn.session, turn.host, [], none, []⟩

def outcome? (w : Contest σ) (i : Nat) : Option TransitionOutcome :=
  w.passages[i]?.bind (·.progress.outcome?)

def request? (w : Contest σ) (i : Nat) : Option NumberedCall :=
  w.passages[i]?.map fun x => ⟨i, x.transition, x.time⟩

/-- The transition whose outcome becomes certain. -/
def decides (h : Host σ) (c : Config) (w : Contest σ) : Event → List NumberedCall
  | .come _ _ => []
  | .go i =>
    if w.outcome? i = none ∧ (w.step h c (.go i)).outcome? i ≠ none then (w.request? i).toList
    else []

/-- The transitions in the order in which their outcomes became certain. -/
def order (h : Host σ) (c : Config) (w : Contest σ) : List Event → List NumberedCall
  | [] => []
  | event :: events => w.decides h c event ++ (w.step h c event).order h c events

variable {h : Host σ} {c : Config} {w : Contest σ} {r : Series σ} {i : Nat} {x : Passage}
  {p : Progress}

theorem run_append (w : Contest σ) (before after : List Event) :
    w.run h c (before ++ after) = (w.run h c before).run h c after :=
  List.foldl_append

theorem order_append (w : Contest σ) (before after : List Event) :
    w.order h c (before ++ after) =
      w.order h c before ++ (w.run h c before).order h c after := by
  induction before generalizing w with
  | nil => rfl
  | cons event events ih =>
    rw [List.cons_append, order, ih, order, List.append_assoc]
    rfl

theorem step_go (at_ : w.passages[i]? = some x) : w.step h c (.go i) = w.goOn h c i x := by
  rw [step, at_]

/-! ### What is certain -/

/-- These are the outcomes that are certain, each one once. -/
structure Counted (outcomes : List (Nat × TransitionOutcome)) (w : Contest σ) : Prop where
  distinct : (outcomes.map Prod.fst).Nodup
  outcome?_eq : ∀ j outcome, w.outcome? j = some outcome ↔ (j, outcome) ∈ outcomes

variable {os : List (Nat × TransitionOutcome)}

theorem outcome?_put (at_ : w.passages[i]? = some x) (j : Nat) :
    (w.put i x p).outcome? j = if j = i then p.outcome? else w.outcome? j := by
  obtain ⟨inside, -⟩ := List.getElem?_eq_some_iff.mp at_
  by_cases same : j = i
  · subst same
    simp [outcome?, put, inside]
  · simp [outcome?, put, same, Ne.symm same]

theorem request?_put (at_ : w.passages[i]? = some x) (j : Nat) :
    (w.put i x p).request? j = w.request? j := by
  obtain ⟨inside, rfl⟩ := List.getElem?_eq_some_iff.mp at_
  by_cases same : j = i
  · subst same
    simp [request?, put, inside]
  · simp [request?, put, Ne.symm same]

theorem Counted.of_outcome? {u : Contest σ} (counted : Counted os w)
    (same : ∀ j, u.outcome? j = w.outcome? j) : Counted os u :=
  ⟨counted.distinct, fun j outcome => by rw [same, counted.outcome?_eq]⟩

theorem Counted.new {u : Contest σ} {outcome : TransitionOutcome} (counted : Counted os w)
    (open_ : w.outcome? i = none)
    (changes : ∀ j, u.outcome? j = if j = i then some outcome else w.outcome? j) :
    Counted (os ++ [(i, outcome)]) u := by
  have fresh : ∀ other, (i, other) ∉ os := fun other member => by
    have certain := (counted.outcome?_eq i other).mpr member
    rw [open_] at certain
    cases certain
  refine ⟨?_, fun j other => ?_⟩
  · rw [List.map_append, List.nodup_append]
    refine ⟨counted.distinct, List.nodup_singleton _, ?_⟩
    rintro a first b last rfl
    obtain ⟨⟨_, other⟩, member, rfl⟩ := List.mem_map.mp first
    cases List.mem_singleton.mp last
    exact fresh other member
  · rw [changes, List.mem_append, List.mem_singleton, ← counted.outcome?_eq, Prod.mk.injEq]
    by_cases same : j = i
    · subst same
      simp [open_, eq_comm]
    · simp [same]

/-! ### What the state is -/

/-- What a transition that has the state to itself has done to it since it came in. -/
inductive Stands (h : Host σ) (c : Config) (s : Session) (y : σ) (commits : List Session)
    (x : Passage) : Progress → Session → σ → List Session → Prop where
  | holding : Stands h c s y commits x .holding s y commits
  | built {turn : Turn σ TransitionOutcome} (did : s.transit h c x.transition x.time y = turn)
      (completed : turn.result = .completed) :
      Stands h c s y commits x (.built turn.session) s turn.host commits
  | written {turn : Turn σ TransitionOutcome} (did : s.transit h c x.transition x.time y = turn)
      (completed : turn.result = .completed) :
      Stands h c s y commits x (.written turn.session.hint) { turn.session with hint := s.hint }
        turn.host (commits ++ [turn.session])
  | leaving (outcome : TransitionOutcome) :
      Stands h c s y commits x (.leaving outcome) s y commits

/-- The transitions whose outcomes are certain could have come one after the other. -/
structure Tracks (h : Host σ) (c : Config) (r : Series σ) (w : Contest σ) : Prop where
  counted : Counted r.outcomes w
  right : r.session.hint = r.session.state
  alone : ∀ i x, w.passages[i]? = some x → x.progress.isInside = true → w.holder = some i
  free : w.holder = none → w.session = r.session ∧ w.host = r.host ∧ w.commits = r.commits
  held : ∀ i, w.holder = some i → ∃ x, w.passages[i]? = some x ∧
    Stands h c r.session r.host r.commits x x.progress w.session w.host w.commits

section

variable {s u : Session} {y z : σ} {cs ds : List Session}

theorem Stands.hint (stands : Stands h c s y cs x p u z ds) : u.hint = s.hint := by
  cases stands <;> rfl

theorem Stands.isInside (stands : Stands h c s y cs x p u z ds) : p.isInside = true := by
  cases stands <;> rfl

theorem Stands.of_holding (stands : Stands h c s y cs x .holding u z ds) :
    u = s ∧ z = y ∧ ds = cs := by
  cases stands
  exact ⟨rfl, rfl, rfl⟩

theorem Stands.of_built {after : Session} (stands : Stands h c s y cs x (.built after) u z ds) :
    ∃ turn, s.transit h c x.transition x.time y = turn ∧ turn.result = .completed ∧
      turn.session = after ∧ u = s ∧ z = turn.host ∧ ds = cs := by
  cases stands with
  | built did completed => exact ⟨_, did, completed, rfl, rfl, rfl, rfl⟩

theorem Stands.of_written {hint : ProcessState}
    (stands : Stands h c s y cs x (.written hint) u z ds) :
    ∃ turn, s.transit h c x.transition x.time y = turn ∧ turn.result = .completed ∧
      turn.session.hint = hint ∧ u = { turn.session with hint := s.hint } ∧ z = turn.host ∧
      ds = cs ++ [turn.session] := by
  cases stands with
  | written did completed => exact ⟨_, did, completed, rfl, rfl, rfl, rfl⟩

theorem Stands.of_leaving {outcome : TransitionOutcome}
    (stands : Stands h c s y cs x (.leaving outcome) u z ds) : u = s ∧ z = y ∧ ds = cs := by
  cases stands
  exact ⟨rfl, rfl, rfl⟩

/-- It depends on the transition, and not on how far that has come. -/
theorem Stands.anew (stands : Stands h c s y cs x p u z ds) (q : Progress) :
    Stands h c s y cs { x with progress := q } p u z ds := by
  cases stands with
  | holding => exact .holding
  | built did completed => exact .built did completed
  | written did completed => exact .written did completed
  | leaving outcome => exact .leaving outcome

end

/-- The hint is always the one of the series. -/
theorem Tracks.hint (tracks : Tracks h c r w) : w.session.hint = r.session.hint := by
  cases holder : w.holder with
  | none => rw [(tracks.free holder).1]
  | some i =>
    obtain ⟨x, -, stands⟩ := tracks.held i holder
    exact stands.hint

/-- A transition that is inside is alone there. -/
theorem Tracks.inside (tracks : Tracks h c r w) (at_ : w.passages[i]? = some x)
    (inside : x.progress.isInside = true) :
    w.holder = some i ∧
      Stands h c r.session r.host r.commits x x.progress w.session w.host w.commits := by
  have holder := tracks.alone i x at_ inside
  obtain ⟨y, there, stands⟩ := tracks.held i holder
  rw [at_] at there
  cases there
  exact ⟨holder, stands⟩

theorem Tracks.outside (tracks : Tracks h c r w) (at_ : w.passages[i]? = some x)
    (outside : x.progress.isInside = false) : w.holder ≠ some i := by
  intro holder
  obtain ⟨y, there, stands⟩ := tracks.held i holder
  rw [at_] at there
  cases there
  rw [stands.isInside] at outside
  cases outside

theorem passages_put (at_ : w.passages[i]? = some x) (j : Nat) :
    (w.put i x p).passages[j]? =
      if j = i then some { x with progress := p } else w.passages[j]? := by
  obtain ⟨inside, -⟩ := List.getElem?_eq_some_iff.mp at_
  by_cases same : j = i
  · subst same
    simp [put, inside]
  · simp [put, same, Ne.symm same]

/-- The transition that has the state to itself goes on. -/
theorem Tracks.holder_goes {u : Contest σ} {r' : Series σ} (tracks : Tracks h c r w)
    (at_ : w.passages[i]? = some x) (holder : w.holder = some i)
    (passages : u.passages = (w.put i x p).passages) (same : u.holder = some i)
    (counted : Counted r'.outcomes (w.put i x p)) (right : r'.session.hint = r'.session.state)
    (stands : Stands h c r'.session r'.host r'.commits x p u.session u.host u.commits) :
    Tracks h c r' u where
  counted := counted.of_outcome? fun j => by rw [outcome?, outcome?, passages]
  right := right
  alone j y there inside := by
    rw [passages, passages_put at_] at there
    split at there
    case isTrue own => rw [own, same]
    case isFalse => rw [same, ← holder, tracks.alone j y there inside]
  free none := by
    rw [same] at none
    cases none
  held j is := by
    rw [same] at is
    cases is
    refine ⟨{ x with progress := p }, ?_, stands.anew p⟩
    rw [passages, passages_put at_, if_pos rfl]

/-- A transition that has the state not to itself goes on, and the state is left alone. -/
theorem Tracks.other_goes {r' : Series σ} (tracks : Tracks h c r w)
    (at_ : w.passages[i]? = some x) (outside : x.progress.isInside = false)
    (still : p.isInside = false) (counted : Counted r'.outcomes (w.put i x p))
    (session : r'.session = r.session) (host : r'.host = r.host)
    (commits : r'.commits = r.commits) :
    Tracks h c r' (w.put i x p) where
  counted := counted
  right := by rw [session, tracks.right]
  alone j y there inside := by
    rw [passages_put at_] at there
    split at there
    · cases there
      rw [still] at inside
      cases inside
    · exact tracks.alone j y there inside
  free none := by
    rw [session, host, commits]
    exact tracks.free none
  held j holder := by
    obtain ⟨y, there, stands⟩ := tracks.held j holder
    refine ⟨y, ?_, by rwa [session, host, commits]⟩
    have other : j ≠ i := by
      rintro rfl
      exact tracks.outside at_ outside holder
    rw [passages_put at_, if_neg other, there]

/-! ### The stages -/

theorem outcome?_of_at (at_ : w.passages[i]? = some x) : w.outcome? i = x.progress.outcome? := by
  rw [outcome?, at_]
  rfl

theorem Counted.put (counted : Counted os w) (at_ : w.passages[i]? = some x)
    (same : p.outcome? = x.progress.outcome?) : Counted os (w.put i x p) := by
  refine counted.of_outcome? fun j => ?_
  rw [outcome?_put at_]
  split
  case isTrue own => rw [own, outcome?_of_at at_, same]
  case isFalse => rfl

theorem Counted.put_new {outcome : TransitionOutcome} (counted : Counted os w)
    (at_ : w.passages[i]? = some x) (open_ : x.progress.outcome? = none)
    (certain : p.outcome? = some outcome) :
    Counted (os ++ [(i, outcome)]) (w.put i x p) := by
  refine counted.new (by rw [outcome?_of_at at_, open_]) fun j => ?_
  rw [outcome?_put at_, certain]

/-- Nothing becomes certain. -/
theorem decides_nothing (at_ : w.passages[i]? = some x)
    (same : (w.goOn h c i x).outcome? i = x.progress.outcome?) :
    w.decides h c (.go i) = [] := by
  rw [decides, step_go at_, same, outcome?_of_at at_, if_neg fun both => both.2 both.1]

/-- The outcome becomes certain. -/
theorem decides_it {outcome : TransitionOutcome} (at_ : w.passages[i]? = some x)
    (open_ : x.progress.outcome? = none)
    (certain : (w.goOn h c i x).outcome? i = some outcome) :
    w.decides h c (.go i) = [⟨i, x.transition, x.time⟩] := by
  have new : w.outcome? i = none ∧ (w.step h c (.go i)).outcome? i ≠ none := by
    rw [step_go at_, certain, outcome?_of_at at_, open_]
    exact ⟨rfl, Option.some_ne_none _⟩
  rw [decides, if_pos new, request?, at_]
  rfl

variable {t : Transition} {time : Millis}

/-- What the hint says to be redundant would be skipped if it came now. -/
theorem Tracks.skips (tracks : Tracks h c r w) (at_ : w.passages[i]? = some ⟨t, time, .coming⟩)
    (redundant : t.isRedundant w.session.hint = true) :
    Tracks h c (r.serve h c ⟨i, t, time⟩) (w.put i ⟨t, time, .coming⟩ (.returned .skipped)) := by
  have skips : r.session.transit h c t time r.host = r.session.stay r.host .skipped [] := by
    refine Session.transit_of_redundant ?_
    rw [← tracks.right, ← tracks.hint, redundant]
  have after : r.serve h c ⟨i, t, time⟩ = { r with outcomes := r.outcomes ++ [(i, .skipped)] } := by
    simp [Series.serve, skips, Session.stay, Turn.commit?]
  rw [after]
  exact tracks.other_goes at_ rfl rfl (tracks.counted.put_new at_ rfl rfl) rfl rfl rfl

theorem Tracks.enters (tracks : Tracks h c r w)
    (at_ : w.passages[i]? = some ⟨t, time, .waiting⟩) (nobody : w.holder = none) :
    Tracks h c r { w.put i ⟨t, time, .waiting⟩ .holding with holder := some i } where
  counted := (tracks.counted.put at_ rfl : Counted _ (w.put i _ .holding)).of_outcome? fun _ => rfl
  right := tracks.right
  alone j y there inside := by
    rw [passages_put at_] at there
    split at there
    case isTrue own => rw [own]
    case isFalse =>
      have other := tracks.alone j y there inside
      rw [nobody] at other
      cases other
  free none := by cases none
  held j holder := by
    cases holder
    obtain ⟨session, host, commits⟩ := tracks.free nobody
    refine ⟨⟨t, time, .holding⟩, by rw [passages_put at_, if_pos rfl], ?_⟩
    simp only [put, session, host, commits]
    exact .holding

/-- The host has built. -/
theorem Tracks.builds (tracks : Tracks h c r w)
    (at_ : w.passages[i]? = some ⟨t, time, .holding⟩)
    (completed : (w.session.transit h c t time w.host).result = .completed) :
    let turn := w.session.transit h c t time w.host
    Tracks h c r { w.put i ⟨t, time, .holding⟩ (.built turn.session) with host := turn.host } := by
  intro turn
  obtain ⟨holder, stands⟩ := tracks.inside at_ rfl
  obtain ⟨session, host, commits⟩ := stands.of_holding
  have did : r.session.transit h c t time r.host = turn := by rw [← session, ← host]
  refine tracks.holder_goes at_ holder rfl holder (tracks.counted.put at_ rfl) tracks.right ?_
  simp only [put, session, commits]
  exact .built did completed

/-- The host has failed, or there was nothing to do. -/
theorem Tracks.fails (tracks : Tracks h c r w)
    (at_ : w.passages[i]? = some ⟨t, time, .holding⟩)
    (other : (w.session.transit h c t time w.host).result ≠ .completed) :
    let turn := w.session.transit h c t time w.host
    Tracks h c (r.serve h c ⟨i, t, time⟩)
      { w.put i ⟨t, time, .holding⟩ (.leaving turn.result) with host := turn.host } := by
  intro turn
  obtain ⟨holder, stands⟩ := tracks.inside at_ rfl
  obtain ⟨session, host, commits⟩ := stands.of_holding
  have did : r.session.transit h c t time r.host = turn := by rw [← session, ← host]
  have same : turn.session = w.session := Session.transit_session other
  have after : r.serve h c ⟨i, t, time⟩ =
      { r with host := turn.host, outcomes := r.outcomes ++ [(i, turn.result)] } := by
    have none : turn.commit? = none := if_neg other
    simp only [Series.serve, did, same, session, none, Option.toList_none, List.append_nil]
  rw [after]
  refine tracks.holder_goes at_ holder rfl holder (tracks.counted.put_new at_ rfl rfl)
    tracks.right ?_
  simp only [put, session, commits]
  exact .leaving _

theorem Tracks.writes {after : Session} (tracks : Tracks h c r w)
    (at_ : w.passages[i]? = some ⟨t, time, .built after⟩) :
    Tracks h c r { w.put i ⟨t, time, .built after⟩ (.written after.hint) with
      session := { after with hint := w.session.hint }
      commits := w.commits ++ [after] } := by
  obtain ⟨holder, stands⟩ := tracks.inside at_ rfl
  obtain ⟨turn, did, completed, rfl, session, host, commits⟩ := stands.of_built
  refine tracks.holder_goes at_ holder rfl holder (tracks.counted.put at_ rfl) tracks.right ?_
  simp only [put, session, host, commits]
  exact .written did completed

/-- The hint is set, and for all others this is the moment of the transition. -/
theorem Tracks.sets {hint : ProcessState} (tracks : Tracks h c r w)
    (at_ : w.passages[i]? = some ⟨t, time, .written hint⟩) :
    Tracks h c (r.serve h c ⟨i, t, time⟩)
      { w.put i ⟨t, time, .written hint⟩ (.leaving .completed) with
        session := { w.session with hint } } := by
  obtain ⟨holder, stands⟩ := tracks.inside at_ rfl
  obtain ⟨turn, did, completed, rfl, session, host, commits⟩ := stands.of_written
  have after : r.serve h c ⟨i, t, time⟩ =
      ⟨turn.session, turn.host, r.commits ++ [turn.session],
        r.outcomes ++ [(i, .completed)]⟩ := by
    have commit : turn.commit? = some turn.session := if_pos completed
    simp only [Series.serve, did, completed, commit, Option.toList_some]
  have right : turn.session.hint = turn.session.state := by
    rw [← did]
    exact Session.transit_hint tracks.right
  rw [after]
  refine tracks.holder_goes at_ holder rfl holder (tracks.counted.put_new at_ rfl rfl) right ?_
  simp only [put, session, host, commits]
  exact .leaving _

theorem Tracks.leaves {outcome : TransitionOutcome} (tracks : Tracks h c r w)
    (at_ : w.passages[i]? = some ⟨t, time, .leaving outcome⟩) :
    Tracks h c r
      { w.put i ⟨t, time, .leaving outcome⟩ (.returned outcome) with holder := none } where
  counted := (tracks.counted.put at_ rfl : Counted _ (w.put i _ (.returned outcome))).of_outcome?
    fun _ => rfl
  right := tracks.right
  alone j y there inside := by
    rw [passages_put at_] at there
    split at there
    · cases there
      cases inside
    case isFalse other =>
      have holder := tracks.alone j y there inside
      rw [(tracks.inside at_ rfl).1] at holder
      cases holder
      exact absurd rfl other
  free _ := (tracks.inside at_ rfl).2.of_leaving
  held j holder := by cases holder

/-- What a stage makes certain is as if the transition came now, with no hint to look at. -/
theorem Tracks.goOn (tracks : Tracks h c r w) (at_ : w.passages[i]? = some x) :
    Tracks h c (r.serveAll h c (w.decides h c (.go i))) (w.goOn h c i x) := by
  have still (same : (w.goOn h c i x).outcome? i = x.progress.outcome?)
      (kept : Tracks h c r (w.goOn h c i x)) :
      Tracks h c (r.serveAll h c (w.decides h c (.go i))) (w.goOn h c i x) := by
    rwa [decides_nothing at_ same]
  have served (outcome : TransitionOutcome) (open_ : x.progress.outcome? = none)
      (certain : (w.goOn h c i x).outcome? i = some outcome)
      (done : Tracks h c (r.serve h c ⟨i, x.transition, x.time⟩) (w.goOn h c i x)) :
      Tracks h c (r.serveAll h c (w.decides h c (.go i))) (w.goOn h c i x) := by
    rwa [decides_it at_ open_ certain]
  have put (p : Progress) : (w.put i x p).outcome? i = p.outcome? := by
    rw [outcome?_put at_, if_pos rfl]
  obtain ⟨t, time, progress⟩ := x
  cases progress with
  | coming =>
    by_cases redundant : t.isRedundant w.session.hint = true
    · have gone : w.goOn h c i ⟨t, time, .coming⟩ =
        w.put i ⟨t, time, .coming⟩ (.returned .skipped) := if_pos redundant
      refine served .skipped rfl (gone ▸ put _) ?_
      rw [gone]
      exact tracks.skips at_ redundant
    · have gone : w.goOn h c i ⟨t, time, .coming⟩ = w.put i ⟨t, time, .coming⟩ .waiting :=
        if_neg redundant
      refine still (gone ▸ put _) ?_
      rw [gone]
      exact tracks.other_goes at_ rfl rfl (tracks.counted.put at_ rfl) rfl rfl rfl
  | waiting =>
    cases holder : w.holder with
    | none =>
      have gone : w.goOn h c i ⟨t, time, .waiting⟩ =
          { w.put i ⟨t, time, .waiting⟩ .holding with holder := some i } := by
        simp only [Contest.goOn, holder]
      refine still (gone ▸ put .holding) ?_
      rw [gone]
      exact tracks.enters at_ holder
    | some j =>
      have gone : w.goOn h c i ⟨t, time, .waiting⟩ = w := by simp only [Contest.goOn, holder]
      exact still (by rw [gone, outcome?_of_at at_]) (by rwa [gone])
  | holding =>
    by_cases completed : (w.session.transit h c t time w.host).result = .completed
    · refine still ?_ ?_ <;> simp only [Contest.goOn, if_pos completed]
      · exact put (.built _)
      · exact tracks.builds at_ completed
    · refine served (w.session.transit h c t time w.host).result rfl ?_ ?_ <;>
        simp only [Contest.goOn, if_neg completed]
      · exact put (.leaving _)
      · exact tracks.fails at_ completed
  | built after => exact still (put (.written _)) (tracks.writes at_)
  | written hint => exact served _ rfl (put (.leaving .completed)) (tracks.sets at_)
  | leaving outcome => exact still (put (.returned outcome)) (tracks.leaves at_)
  | returned outcome => exact still (outcome?_of_at at_) tracks

theorem getElem?_come {y : Passage} (j : Nat) :
    (w.step h c (.come t time)).passages[j]? = some y ↔
      w.passages[j]? = some y ∨ j = w.passages.length ∧ y = ⟨t, time, .coming⟩ := by
  simp only [step, List.getElem?_append]
  split
  case isTrue inside => simp [inside.ne]
  case isFalse outside =>
    rw [List.getElem?_eq_none (Nat.le_of_not_lt outside), List.getElem?_singleton]
    have first : j - w.passages.length = 0 ↔ j = w.passages.length := by omega
    simp [first, eq_comm]

theorem Tracks.come (tracks : Tracks h c r w) (t : Transition) (time : Millis) :
    Tracks h c r (w.step h c (.come t time)) where
  counted := tracks.counted.of_outcome? fun j => by
    refine Option.ext fun outcome => ?_
    simp only [outcome?, Option.bind_eq_some_iff, getElem?_come]
    constructor
    · rintro ⟨y, there | ⟨-, rfl⟩, certain⟩
      · exact ⟨y, there, certain⟩
      · cases certain
    · rintro ⟨y, there, certain⟩
      exact ⟨y, .inl there, certain⟩
  right := tracks.right
  alone j y there inside := by
    rcases (getElem?_come j).mp there with before | ⟨-, rfl⟩
    · exact tracks.alone j y before inside
    · cases inside
  free := tracks.free
  held j holder := by
    obtain ⟨y, there, stands⟩ := tracks.held j holder
    exact ⟨y, (getElem?_come j).mpr (.inl there), stands⟩

theorem Tracks.step (tracks : Tracks h c r w) (event : Event) :
    Tracks h c (r.serveAll h c (w.decides h c event)) (w.step h c event) := by
  cases event with
  | come t time => exact tracks.come t time
  | go i =>
    cases at_ : w.passages[i]? with
    | some x =>
      rw [step_go at_]
      exact tracks.goOn at_
    | none =>
      have nothing : w.decides h c (.go i) = [] := by
        simp [decides, Contest.step, at_]
      have same : w.step h c (.go i) = w := by rw [Contest.step, at_]
      rwa [nothing, same]

theorem Tracks.run (tracks : Tracks h c r w) (events : List Event) :
    Tracks h c (r.serveAll h c (w.order h c events)) (w.run h c events) := by
  induction events generalizing r w with
  | nil => exact tracks
  | cons event events ih =>
    rw [order, Series.serveAll_append]
    exact ih (tracks.step event)

/-! ### What was asked for -/

/-- A stage changes no more than how far its transition has come. -/
theorem goOn_passages (at_ : w.passages[i]? = some x) :
    ∃ p, (w.goOn h c i x).passages = (w.put i x p).passages := by
  have same : w.passages = (w.put i x x.progress).passages := by
    obtain ⟨inside, rfl⟩ := List.getElem?_eq_some_iff.mp at_
    exact (List.set_getElem_self inside).symm
  obtain ⟨t, time, progress⟩ := x
  cases progress with
  | coming =>
    simp only [goOn]
    split <;> exact ⟨_, rfl⟩
  | waiting =>
    simp only [goOn]
    split
    · exact ⟨_, rfl⟩
    · exact ⟨_, same⟩
  | holding | built | written | leaving => exact ⟨_, rfl⟩
  | returned => exact ⟨_, same⟩

theorem request?_step {q : NumberedCall} {j : Nat} (asked : w.request? j = some q) (event : Event) :
    (w.step h c event).request? j = some q := by
  cases event with
  | come t time =>
    rw [request?, Option.map_eq_some_iff] at asked ⊢
    obtain ⟨x, there, is⟩ := asked
    exact ⟨x, (getElem?_come j).mpr (.inl there), is⟩
  | go i =>
    cases at_ : w.passages[i]? with
    | none => rwa [step, at_]
    | some x =>
      obtain ⟨p, passages⟩ := goOn_passages (h := h) (c := c) at_
      rw [step_go at_, request?, passages, ← request?, request?_put at_, asked]

theorem request?_run {q : NumberedCall} {j : Nat} (asked : w.request? j = some q)
    (events : List Event) : (w.run h c events).request? j = some q := by
  induction events generalizing w with
  | nil => exact asked
  | cons event events ih => exact ih (request?_step asked event)

theorem request?_of_mem_decides {q : NumberedCall} {event : Event}
    (member : q ∈ w.decides h c event) : w.request? q.number = some q := by
  cases event with
  | come t time => cases member
  | go i =>
    rw [decides] at member
    split at member
    · have asked : w.request? i = some q := Option.mem_toList.mp member
      have number : q.number = i := by
        obtain ⟨x, -, rfl⟩ := Option.map_eq_some_iff.mp asked
        rfl
      rw [number, asked]
    · cases member

theorem request?_of_mem_order {q : NumberedCall} {events : List Event}
    (member : q ∈ w.order h c events) : (w.run h c events).request? q.number = some q := by
  induction events generalizing w with
  | nil => cases member
  | cons event events ih =>
    rcases List.mem_append.mp member with now | later
    · exact request?_run (request?_step (request?_of_mem_decides now) event) events
    · exact ih later

/-! ### The order of the calls -/

/-- What comes after the start. -/
def series (w : Contest σ) : Series σ := ⟨w.session, w.host, w.commits, []⟩

def Returned (w : Contest σ) (i : Nat) (outcome : TransitionOutcome) : Prop :=
  ∃ x, w.passages[i]? = some x ∧ x.progress = .returned outcome

/-- Made one after the other in this order, with no hint to look at, the calls do what they did
together. -/
structure Linearizes (h : Host σ) (c : Config) (first : Contest σ) (events : List Event)
    (calls : List NumberedCall) : Prop where
  distinct : (calls.map (·.number)).Nodup
  /-- They were asked for. -/
  asked : ∀ q ∈ calls, (first.run h c events).request? q.number = some q
  outcomes : ∀ i outcome, (first.run h c events).Returned i outcome →
    (i, outcome) ∈ (first.series.serveAll h c calls).outcomes
  /-- A call that had returned when another one came is made before that one. -/
  inOrder : ∀ before after, events = before ++ after → ∀ i outcome,
    (first.run h c before).Returned i outcome →
    ∀ j ∈ calls.map (·.number), (first.run h c before).passages.length ≤ j →
      [i, j].Sublist (calls.map (·.number))
  /-- When no call has the state to itself, all is as after these calls, and the hint is right. -/
  free : (first.run h c events).holder = none →
    (first.run h c events).session = (first.series.serveAll h c calls).session ∧
    (first.run h c events).host = (first.series.serveAll h c calls).host ∧
    (first.run h c events).commits = (first.series.serveAll h c calls).commits ∧
    (first.run h c events).session.hint = (first.run h c events).session.state
  /-- When all calls have returned, these are all, and no call has the state to itself. -/
  complete : (∀ i < (first.run h c events).passages.length,
      ∃ outcome, (first.run h c events).Returned i outcome) →
    (calls.map (·.number)).Perm (List.range (first.run h c events).passages.length) ∧
      (first.run h c events).holder = none

variable {first : Contest σ} {events : List Event}

theorem Returned.outcome? {outcome : TransitionOutcome} (returned : w.Returned i outcome) :
    w.outcome? i = some outcome := by
  obtain ⟨x, at_, progress⟩ := returned
  rw [outcome?_of_at at_, progress]
  rfl

theorem returned_of_outcomes {outcomes : List TransitionOutcome}
    (ends : w.passages.map (·.progress) = outcomes.map .returned)
    (inside : i < w.passages.length) : ∃ outcome, w.Returned i outcome := by
  have same := congrArg (·[i]?) ends
  simp only [List.getElem?_map, List.getElem?_eq_getElem inside, Option.map_some] at same
  obtain ⟨outcome, -, progress⟩ := Option.map_eq_some_iff.mp same.symm
  exact ⟨outcome, _, List.getElem?_eq_getElem inside, progress.symm⟩

/-- The calls whose outcomes are certain are the ones that were made so far. -/
theorem Tracks.outcome?_isSome_iff (tracks : Tracks h c first.series first) (i : Nat) :
    ((first.run h c events).outcome? i).isSome ↔
      i ∈ (first.order h c events).map (·.number) := by
  have numbers := first.series.numbers_serveAll h c (first.order h c events)
  rw [series, List.map_nil, List.nil_append, ← series] at numbers
  rw [Option.isSome_iff_exists, ← numbers, List.mem_map]
  simp only [(tracks.run events).counted.outcome?_eq]
  simp

theorem Tracks.linearizes (tracks : Tracks h c first.series first) (events : List Event) :
    Linearizes h c first events (first.order h c events) := by
  have after := tracks.run events
  have numbers := first.series.numbers_serveAll h c (first.order h c events)
  rw [series, List.map_nil, List.nil_append, ← series] at numbers
  have distinct : ((first.order h c events).map (·.number)).Nodup :=
    numbers ▸ after.counted.distinct
  refine ⟨distinct, fun q member => request?_of_mem_order member, ?_, ?_, ?_, ?_⟩
  · intro i outcome returned
    exact (after.counted.outcome?_eq i outcome).mp returned.outcome?
  · rintro before later rfl i outcome returned j member new
    rw [order_append, List.map_append] at member ⊢
    have early : i ∈ (first.order h c before).map (·.number) := by
      rw [← tracks.outcome?_isSome_iff, returned.outcome?]
      rfl
    have late : j ∉ (first.order h c before).map (·.number) := by
      rw [← tracks.outcome?_isSome_iff, Contest.outcome?, List.getElem?_eq_none new]
      nofun
    have there := (List.mem_append.mp member).resolve_left late
    exact (List.singleton_sublist.mpr early).append (List.singleton_sublist.mpr there)
  · intro nobody
    obtain ⟨session, host, commits⟩ := after.free nobody
    exact ⟨session, host, commits, by rw [session, after.right]⟩
  · intro all
    refine ⟨?_, ?_⟩
    · rw [List.perm_ext_iff_of_nodup distinct List.nodup_range]
      intro i
      rw [← tracks.outcome?_isSome_iff, List.mem_range]
      constructor
      · intro certain
        by_contra outside
        rw [Contest.outcome?, List.getElem?_eq_none (Nat.le_of_not_lt outside)] at certain
        cases certain
      · intro inside
        obtain ⟨outcome, returned⟩ := all i inside
        rw [returned.outcome?]
        rfl
    · cases holder : (first.run h c events).holder with
      | none => rfl
      | some i =>
        obtain ⟨x, at_, stands⟩ := after.held i holder
        obtain ⟨inside, -⟩ := List.getElem?_eq_some_iff.mp at_
        obtain ⟨outcome, y, there, progress⟩ := all i inside
        rw [at_] at there
        cases there
        have still := stands.isInside
        rw [progress] at still
        cases still

theorem start_tracks (h : Host σ) (c : Config) (state : ProcessState) (time : Millis)
    (host : σ) : Tracks h c (start h c state time host).series (start h c state time host) where
  counted := ⟨List.nodup_nil, fun j outcome => by simp [outcome?, start, series]⟩
  right := Session.transit_hint (s := Session.initial state) rfl
  alone i x at_ := by simp [start] at at_
  free _ := ⟨rfl, rfl, rfl⟩
  held i holder := by cases holder

/-! ### A call that nobody interrupts -/

/-- A transition that has waited, all at once. -/
def pass (h : Host σ) (c : Config) (w : Contest σ) (i : Nat) (x : Passage) : Contest σ :=
  let turn := w.session.transit h c x.transition x.time w.host
  { w.put i x (.returned turn.result) with
    session := turn.session
    host := turn.host
    commits := w.commits ++ turn.commit?.toList }

/-- If no other call comes between, then a transition has the state to itself in one step. -/
theorem run_uninterrupted (at_ : w.passages[i]? = some x) (waits : x.progress = .waiting)
    (nobody : w.holder = none) :
    w.run h c (List.replicate 5 (.go i)) = w.pass h c i x := by
  obtain ⟨inside, -⟩ := List.getElem?_eq_some_iff.mp at_
  obtain ⟨t, time, progress⟩ := x
  subst waits
  have enters : w.step h c (.go i) =
      { w.put i ⟨t, time, .waiting⟩ .holding with holder := some i } := by
    rw [step_go at_, goOn, nobody]
  rw [run, List.replicate_succ, List.foldl_cons, enters]
  by_cases completed : (w.session.transit h c t time w.host).result = .completed
  · simp [pass, step, goOn, put, inside, completed, Turn.commit?, nobody]
  · have same := Session.transit_session completed
    simp [pass, step, goOn, put, inside, completed, Turn.commit?, nobody, same]

/-! ### A host that is watched -/

def unwatched (w : Contest (σ × List HostCall)) : Contest σ :=
  ⟨w.session, w.host.1, w.commits, w.holder, w.passages⟩

theorem step_unwatched (w : Contest (σ × List HostCall)) (event : Event) :
    (w.step h.watched c event).unwatched = w.unwatched.step h c event := by
  cases event with
  | come t time => rfl
  | go i =>
    have there : w.unwatched.passages = w.passages := rfl
    rw [step, step, there]
    cases w.passages[i]? with
    | none => rfl
    | some x =>
      obtain ⟨t, time, progress⟩ := x
      cases progress with
      | coming =>
        cases redundant : t.isRedundant w.session.hint <;> simp [goOn, unwatched, put, redundant]
      | waiting =>
        cases holder : w.holder <;> simp [goOn, unwatched, put, holder]
      | holding =>
        have did := Session.transit_watched h c t time w.session w.host
        simp only [goOn, unwatched, put, ← did]
        rfl
      | built | written | leaving | returned => rfl

theorem run_unwatched (w : Contest (σ × List HostCall)) (events : List Event) :
    (w.run h.watched c events).unwatched = w.unwatched.run h c events := by
  induction events generalizing w with
  | nil => rfl
  | cons event events ih =>
    rw [run, List.foldl_cons, ← run, ih, step_unwatched]
    rfl

theorem start_unwatched (h : Host σ) (c : Config) (state : ProcessState) (time : Millis)
    (host : σ) :
    (start h.watched c state time (host, [])).unwatched = start h c state time host := by
  have did := Session.transit_watched h c (.initial state) time (.initial state) (host, [])
  simp only [start, Session.begin, Session.transition, Transition.isRedundant, unwatched, ← did]
  rfl

end Contest

namespace Session

/-- The hint saves the wait and changes nothing else.

Whatever the host does and however the calls come between each other, there is an order of the calls
in which they could have come one after the other, with no hint to look at. A call that had returned
when another one came is before that one in this order. Each call has the outcome that it has in
this order; and whenever no call has the state to itself, the session, the sessions that were
committed, and all that the host was asked for are as in this order, and the hint is the state.

That the host is watched makes no difference to it. A call that nobody interrupts has the state to
itself in one step, so these runs are also the ones of calls that look at the hint in one step and
do the rest in another. -/
theorem hint_only_saves_wait (h : Host σ) (c : Config) (state : ProcessState) (time : Millis)
    (host : σ) (events : List Contest.Event) :
    (∃ calls : List NumberedCall,
      Contest.Linearizes h.watched c (Contest.start h.watched c state time (host, [])) events
        calls) ∧
    ((Contest.start h.watched c state time (host, [])).run h.watched c events).unwatched =
      (Contest.start h c state time host).run h c events ∧
    ∀ (w : Contest σ) (i : Nat) (x : Passage), w.passages[i]? = some x → x.progress = .waiting →
      w.holder = none → w.run h c (List.replicate 5 (.go i)) = w.pass h c i x := by
  refine ⟨⟨_, (Contest.start_tracks h.watched c state time (host, [])).linearizes events⟩, ?_, ?_⟩
  · rw [Contest.run_unwatched, Contest.start_unwatched]
  · intro w i x
    exact Contest.run_uninterrupted

/-- A call to the background has the state to itself while a call to the foreground looks at the
hint, and a manual end looks at it when it is set. -/
def hurried : List Contest.Event :=
  [.come .background 10, .come (.foreground false) 20, .go 0, .go 0, .go 1, .go 0, .go 0, .go 0,
    .come (.manual false) 30, .go 2, .go 0]

/-- The call to the foreground comes first in the order, and the manual end comes last. -/
theorem hint_only_saves_wait_of_hurried :
    let h := Puppet.host.watched
    let first := Contest.start h .default .foreground 0 (.fresh, [])
    (first.run h .default hurried).holder = none ∧
      (first.run h .default hurried).passages.map (·.progress) =
        [.completed, .skipped, .skipped].map .returned ∧
      (first.order h .default hurried).map (·.number) = [1, 0, 2] ∧
      ∃ calls : List NumberedCall,
        (calls.map (·.number)).Perm (List.range 3) ∧
        (first.run h .default hurried).host = (first.series.serveAll h .default calls).host ∧
        (first.run h .default hurried).session.hint =
          (first.run h .default hurried).session.state := by
  intro h first
  have nobody : (first.run h .default hurried).holder = none := by decide +kernel
  have ends : (first.run h .default hurried).passages.map (·.progress) =
      [.completed, .skipped, .skipped].map .returned := by decide +kernel
  have three : (first.run h .default hurried).passages.length = 3 := by decide +kernel
  have orders : ∃ calls, Contest.Linearizes h .default first hurried calls :=
    (hint_only_saves_wait Puppet.host .default .foreground 0 .fresh hurried).1
  obtain ⟨calls, fits⟩ := orders
  obtain ⟨all, -⟩ := fits.complete fun i => Contest.returned_of_outcomes ends
  rw [three] at all
  have free := fits.free nobody
  exact ⟨nobody, ends, by decide +kernel, calls, all, free.2.1, free.2.2.2⟩

end Session
end Outbox
