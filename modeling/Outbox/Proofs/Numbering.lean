import Outbox.Proofs.AllOrNothing

/-! # How the envelopes are numbered

With each envelope that the host is asked to begin it is given a number, which counts the envelopes
of that state. A number is used up only by an envelope that was committed: if the host fails, the
next attempt has the same number. So in each state the envelopes are numbered from one on, until the
counter of 32 bits begins again, and the one that runs is always of the state that the session is
in.
-/

namespace Outbox

variable {σ : Type}

/-- What the host was asked to begin, and the envelope that was committed for it, if any. -/
structure Ask where
  params : InitialParams
  begun : Option Envelope
  deriving Repr, DecidableEq

namespace Ask

/-- The envelopes that were committed, each with the number that the host was given for it. -/
def births (asks : List Ask) : List (Nat × Envelope) :=
  asks.filterMap fun a => a.begun.map fun e => (a.params.number, e)

/-- The numbers of the committed envelopes of this state. -/
def numbers (state : ProcessState) (asks : List Ask) : List Nat :=
  ((births asks).filter fun b => b.2.state == state).map Prod.fst

variable {state : ProcessState} {asks others : List Ask}

theorem births_append (asks others : List Ask) :
    births (asks ++ others) = births asks ++ births others :=
  List.filterMap_append

theorem numbers_append (state : ProcessState) (asks others : List Ask) :
    numbers state (asks ++ others) = numbers state asks ++ numbers state others := by
  simp [numbers, births_append]

theorem envelopes_births (asks : List Ask) :
    (births asks).map Prod.snd = asks.filterMap (·.begun) := by
  simp [births, List.map_filterMap, Function.comp_def]

theorem length_numbers (state : ProcessState) (asks : List Ask) :
    (numbers state asks).length = (asks.filterMap (·.begun)).countP (·.state == state) := by
  rw [numbers, List.length_map, ← List.countP_eq_length_filter, ← envelopes_births,
    List.countP_map]
  rfl

/-- Every attempt was made with the number that follows those of the envelopes that had been
committed in the same state by then, in a count of 32 bits. -/
def InTurn (asks : List Ask) : Prop :=
  ∀ before ask after, asks = before ++ ask :: after →
    ask.params.number = ((numbers ask.params.state before).length + 1) % 4294967296

theorem InTurn.nil : InTurn [] := fun before ask after split => by simp at split

theorem InTurn.concat {ask : Ask} (inTurn : InTurn asks)
    (number : ask.params.number = ((numbers ask.params.state asks).length + 1) % 4294967296) :
    InTurn (asks ++ [ask]) := by
  intro before other after split
  rcases List.eq_nil_or_concat after with rfl | ⟨after, last, rfl⟩
  · obtain ⟨rfl, one⟩ := List.append_inj' split rfl
    cases one
    exact number
  · rw [List.concat_eq_append, ← List.cons_append, ← List.append_assoc] at split
    exact inTurn before other after (List.append_inj' split rfl).1

theorem InTurn.append (inTurn : InTurn asks) (one : others.length ≤ 1)
    (number : ∀ ask ∈ others,
      ask.params.number = ((numbers ask.params.state asks).length + 1) % 4294967296) :
    InTurn (asks ++ others) := by
  cases others with
  | nil => rwa [List.append_nil]
  | cons ask others =>
    obtain rfl : others = [] := by simpa using one
    exact inTurn.concat (number ask (by simp))

/-- While fewer envelopes begin than the counter can count, each attempt is made with the number of
the envelopes that had been committed in the same state by then, and one. -/
theorem InTurn.number_eq (inTurn : InTurn asks)
    (few : (asks.filterMap (·.begun)).length < 4294967295) {before after : List Ask} {ask : Ask}
    (split : asks = before ++ ask :: after) :
    ask.params.number = (numbers ask.params.state before).length + 1 := by
  have number := inTurn before ask after split
  have fewer := length_numbers ask.params.state before
  have counted : (before.filterMap (·.begun)).countP (·.state == ask.params.state) ≤ _ :=
    List.countP_le_length
  rw [split, List.filterMap_append, List.length_append] at few
  omega

/-- If all attempts were made in turn, the numbers of the committed envelopes have no gaps. -/
theorem InTurn.numbers_eq (inTurn : InTurn asks)
    (homes : ∀ ask ∈ asks, ∀ e ∈ ask.begun, e.state = ask.params.state) (state : ProcessState) :
    numbers state asks = (List.range' 1 (numbers state asks).length).map (· % 4294967296) := by
  induction asks using List.reverseRecOn with
  | nil => rfl
  | append_singleton asks ask ih =>
    have earlier : InTurn asks := fun before other after split =>
      inTurn before other (after ++ [ask]) (by simp [split])
    have number := inTurn asks ask [] rfl
    have ih := ih earlier fun other member => homes other (by simp [member])
    have none_or_one : numbers state [ask] = [] ∨
        numbers state [ask] = [((numbers state asks).length + 1) % 4294967296] := by
      cases begun : ask.begun with
      | none => exact .inl (by simp [numbers, births, begun])
      | some e =>
        have home := homes ask (by simp) e begun
        by_cases same : e.state = state
        · rw [← home, same] at number
          exact .inr (by simp [numbers, births, begun, same, number])
        · exact .inl (by simp [numbers, births, begun, same])
    rw [numbers_append]
    rcases none_or_one with none_ | one
    · simpa [none_] using ih
    · rw [one, List.length_append, List.length_singleton, List.range'_concat, List.map_append, ← ih,
        List.map_singleton, Nat.one_mul, Nat.add_comm 1]

end Ask

open Ask (births numbers)

/-- What the host was asked to begin, if this is what it was asked for. -/
def HostCall.initial? : HostCall → Option InitialParams
  | buildInitial p => some p
  | buildFinal _ | prepare _ _ => none

/-- What the host was asked to begin in a transition. -/
def Turn.asks (turn : Turn (σ × List HostCall) TransitionOutcome) : List Ask :=
  (turn.host.2.filterMap HostCall.initial?).map fun p => ⟨p, turn.begun?⟩

/-- The host builds an envelope of the state that it is asked for. -/
def Host.Obeys (h : Host σ) : Prop :=
  ∀ p x e, (h.buildInitial p x).1 = .value e → e.state = p.state

/-! ## One transition -/

namespace Session

variable {h : Host σ} {c : Config} {t : Transition} {time : Millis} {s : Session} {host : σ}
  {x : σ × List HostCall} {turn : Turn (σ × List HostCall) TransitionOutcome}

/-- A transition asks the host for one envelope at most, the next one of the target state, and what
was begun is what the host built then. -/
structure Asked (h : Host σ) (s : Session)
    (turn : Turn (σ × List HostCall) TransitionOutcome) : Prop where
  one : turn.asks.length ≤ 1
  begun : turn.asks.filterMap (·.begun) = turn.begun?.toList
  number : ∀ ask ∈ turn.asks, ask.params.ordinal = s.nextNumber ask.params.state
  built : ∀ ask ∈ turn.asks, ∀ e ∈ ask.begun, ∃ x, (h.buildInitial ask.params x).1 = .value e
  counted : ∀ state, (turn.session.nextNumber state).toNat =
    ((s.nextNumber state).toNat + (numbers state turn.asks).length) % 4294967296

/-- The envelope that runs is of the state of the session, and in the background it runs only if
background activities are recorded. -/
structure Coherent (c : Config) (s : Session) : Prop where
  state : ∀ e ∈ s.active, e.state = s.state
  enabled : s.active.isSome = true → s.state = .background → c.backgroundActivityEnabled = true

@[simp]
theorem toNat_nextNumber_mod (s : Session) (state : ProcessState) :
    (s.nextNumber state).toNat % 4294967296 = (s.nextNumber state).toNat := by
  have most := (s.nextNumber state).le_hi
  unfold Ranged.toNat
  omega

theorem nextNumber_commit (s : Session) (target state : ProcessState) (next : Option Envelope) :
    ((s.commit target next).nextNumber state).toNat = ((s.nextNumber state).toNat +
      if target = state then next.toList.length else 0) % 4294967296 := by
  cases target <;> cases state <;> cases next <;>
    simp [commit, nextNumber, Ranged.toNat, Ranged.wrap] <;> omega

theorem buildFinal_unasked (h : Host σ) (t : Transition) (time : Millis) (s : Session)
    (x : σ × List HostCall) :
    (s.buildFinal h.watched t time x).2.2.filterMap HostCall.initial? =
      x.2.filterMap HostCall.initial? := by
  unfold buildFinal
  cases s.active with
  | none => rfl
  | some e =>
    simp only [Host.watched]
    split <;> simp [HostCall.initial?]

theorem prepare_unasked (h : Host σ) (t : Transition) (time : Millis) (x : σ × List HostCall) :
    (prepare h.watched t time x).2.2.filterMap HostCall.initial? =
      x.2.filterMap HostCall.initial? := by
  simp only [prepare, Host.watched]
  split <;> simp [HostCall.initial?]

/-- Either no envelope follows, and the host is asked for none, or it is asked for the next one. -/
theorem buildInitial_asks (h : Host σ) (c : Config) (t : Transition) (time : Millis) (s : Session)
    (x : σ × List HostCall) :
    s.buildInitial h.watched c t time x = (.ok none, x) ∨
      ((s.buildInitial h.watched c t time x).1 ≠ .ok none ∧
        (s.buildInitial h.watched c t time x).2.2.filterMap HostCall.initial? =
          x.2.filterMap HostCall.initial? ++
            [⟨time, t.target s.state, t.coldStart, s.nextNumber (t.target s.state)⟩]) := by
  unfold buildInitial
  dsimp only
  split
  · refine .inr ?_
    simp only [Host.watched]
    split <;> simp [HostCall.initial?]
  · exact .inl rfl

theorem Asked.of_none (unasked : turn.host.2.filterMap HostCall.initial? = [])
    (nothing : turn.begun? = none)
    (same : ∀ state, (turn.session.nextNumber state).toNat = (s.nextNumber state).toNat) :
    s.Asked h turn := by
  have none_ : turn.asks = [] := by rw [Turn.asks, unasked, List.map_nil]
  exact ⟨by simp [none_], by simp [none_, nothing], by simp [none_], by simp [none_],
    fun state => by simp [none_, same, numbers, births]⟩

theorem Asked.of_one {p : InitialParams} (asked : turn.host.2.filterMap HostCall.initial? = [p])
    (number : p.ordinal = s.nextNumber p.state)
    (built : ∀ e ∈ turn.begun?, e.state = p.state ∧ ∃ x, (h.buildInitial p x).1 = .value e)
    (counted : ∀ state, (turn.session.nextNumber state).toNat = ((s.nextNumber state).toNat +
      if p.state = state then turn.begun?.toList.length else 0) % 4294967296) :
    s.Asked h turn := by
  have one : turn.asks = [⟨p, turn.begun?⟩] := by rw [Turn.asks, asked, List.map_singleton]
  refine ⟨by simp [one], by cases begun : turn.begun? <;> simp [one, begun], by simp [one, number],
    ?_, fun state => ?_⟩
  · simp only [one, List.mem_singleton, forall_eq]
    exact fun e member => (built e member).2
  · rw [counted, one]
    cases begun : turn.begun? with
    | none => simp [numbers, births]
    | some e =>
      have home := (built e begun).1
      by_cases same : p.state = state <;> simp [numbers, births, home, same]

theorem Transits.asked (obeys : h.Obeys) (did : Transits h.watched c t time s (host, []) turn) :
    s.Asked h turn := by
  cases did with
  | skips => exact .of_none rfl rfl fun _ => rfl
  | @unended x r ends =>
    have final := buildFinal_unasked h t time s (host, [])
    rw [ends] at final
    exact .of_none final rfl fun _ => rfl
  | @unprepared x y _ r ends prepares =>
    have final := buildFinal_unasked h t time s (host, [])
    have reset := prepare_unasked h t time x
    rw [ends] at final
    rw [prepares] at reset
    exact .of_none (reset.trans final) rfl fun _ => rfl
  | @unbegun x y z _ r ends prepares begins =>
    have final := buildFinal_unasked h t time s (host, [])
    have reset := prepare_unasked h t time x
    rw [ends] at final
    rw [prepares] at reset
    rcases buildInitial_asks h c t time s y with same | ⟨_, asked⟩
    · rw [begins] at same
      cases same
    · rw [begins, reset.trans final] at asked
      exact .of_one asked rfl (by simp [Turn.begun?, stay]) (by simp [Turn.begun?, stay])
  | @completes x y z final next ends prepares begins =>
    have final := buildFinal_unasked h t time s (host, [])
    have reset := prepare_unasked h t time x
    rw [ends] at final
    rw [prepares] at reset
    rcases buildInitial_asks h c t time s y with same | ⟨_, asked⟩
    · rw [begins] at same
      obtain ⟨⟨⟩, rfl⟩ := Prod.mk.inj same
      exact .of_none (reset.trans final) rfl fun state => by simp [nextNumber_commit]
    · rw [begins, reset.trans final] at asked
      refine .of_one asked rfl (fun e begun => ?_) fun state => nextNumber_commit s _ state next
      have built := congrArg Prod.fst ((buildInitial_eq_ok begins).2 e begun)
      exact ⟨obeys _ _ e built, y.1, built⟩

theorem Transits.coherent (obeys : h.Obeys) (coherent : s.Coherent c)
    (did : Transits h.watched c t time s (host, []) turn) : turn.session.Coherent c := by
  cases did with
  | skips | unended | unprepared | unbegun => exact coherent
  | @completes x y z final next ends prepares begins =>
    obtain ⟨none_, built⟩ := buildInitial_eq_ok begins
    refine ⟨fun e running => obeys _ y.1 e (congrArg Prod.fst (built e running)), ?_⟩
    intro running background
    by_contra disabled
    have nobody : next = none := none_.mpr (.inr ⟨background, Bool.eq_false_iff.mpr disabled⟩)
    subst nobody
    cases running

end Session

/-! ## Calls one after the other -/

namespace Story

variable {h : Host σ} {c : Config} {w : Story σ} {past : List Ask}

/-- What the host is asked to begin in a call. -/
def asks (h : Host σ) (c : Config) (w : Story σ) : Call → List Ask
  | .transition t time => (w.session.transition h.watched c t time (w.host, [])).asks
  | .checkpoint _ | .checkpointBackground _ => []

/-- All that the host is asked to begin along some calls. -/
def register (h : Host σ) (c : Config) (w : Story σ) : List Call → List Ask
  | [] => []
  | call :: calls => w.asks h c call ++ (w.heed h c call).register h c calls

/-- A process in which nothing was called yet. -/
def unborn (state : ProcessState) (host : σ) : Story σ := ⟨.initial state, host, [], []⟩

/-- A new process makes its first transition. -/
theorem start_eq (h : Host σ) (c : Config) (state : ProcessState) (time : Millis) (host : σ) :
    start h c state time host = (unborn state host).heed h c (.transition (.initial state) time) :=
  rfl

/-- All attempts were made in turn, and what was committed is what the host built then. -/
structure Numbered (h : Host σ) (w : Story σ) (asks : List Ask) : Prop where
  begun : asks.filterMap (·.begun) = w.begun
  built : ∀ ask ∈ asks, ∀ e ∈ ask.begun, ∃ x, (h.buildInitial ask.params x).1 = .value e
  next : ∀ state, (w.session.nextNumber state).toNat =
    ((numbers state asks).length + 1) % 4294967296
  inTurn : Ask.InTurn asks

theorem unborn_numbered (h : Host σ) (state : ProcessState) (host : σ) :
    (unborn state host).Numbered h [] where
  begun := rfl
  built := by simp
  next state := by cases state <;> rfl
  inTurn := .nil

/-- The attempts of one more transition follow the earlier ones in number. -/
theorem Numbered.append {turn : Turn (σ × List HostCall) TransitionOutcome}
    (numbered : w.Numbered h past) (asked : w.session.Asked h turn) :
    (w.record turn.unwatched turn.begun?).Numbered h (past ++ turn.asks) where
  begun := by
    rw [List.filterMap_append, numbered.begun, asked.begun]
    rfl
  built ask member := by
    rcases List.mem_append.mp member with early | late
    · exact numbered.built ask early
    · exact asked.built ask late
  next state := by
    have counted := asked.counted state
    rw [numbered.next] at counted
    rw [Ask.numbers_append, List.length_append]
    exact counted.trans (by omega)
  inTurn := numbered.inTurn.append asked.one fun ask member =>
    (congrArg Ranged.toNat (asked.number ask member)).trans (numbered.next _)

theorem Numbered.still {turn : Turn σ Bool} (numbered : w.Numbered h past)
    (same : turn.session = w.session) : (w.record turn none).Numbered h past where
  begun := by simp [record, numbered.begun]
  built := numbered.built
  next state := by simp [record, same, numbered.next]
  inTurn := numbered.inTurn

/-- A call keeps the numbers in turn and the running envelope in its state. -/
theorem heed_numbered (obeys : h.Obeys) (numbered : w.Numbered h past)
    (coherent : w.session.Coherent c) (call : Call) :
    (w.heed h c call).Numbered h (past ++ w.asks h c call) ∧
      (w.heed h c call).session.Coherent c := by
  cases call with
  | transition t time =>
    have did := Session.transition_transits h.watched c t time w.session (w.host, [])
    have seen := Session.transition_watched h c t time w.session (w.host, [])
    have numbered := numbered.append (did.asked obeys)
    have coherent := did.coherent obeys coherent
    simp only [heed, asks, ← seen]
    exact ⟨numbered, coherent⟩
  | checkpoint time =>
    have same := (Session.checkpoint_sketches h time w.session w.host).1
    simp only [heed, asks, List.append_nil]
    exact ⟨numbered.still same, (congrArg (Session.Coherent c) same).mpr coherent⟩
  | checkpointBackground time =>
    have same := (Session.checkpointBackground_sketches h time w.session w.host).1
    simp only [heed, asks, List.append_nil]
    exact ⟨numbered.still same, (congrArg (Session.Coherent c) same).mpr coherent⟩

theorem register_numbered (obeys : h.Obeys) (numbered : w.Numbered h past)
    (coherent : w.session.Coherent c) (calls : List Call) :
    (calls.foldl (heed h c) w).Numbered h (past ++ w.register h c calls) ∧
      (calls.foldl (heed h c) w).session.Coherent c := by
  induction calls generalizing w past with
  | nil => simpa [register] using ⟨numbered, coherent⟩
  | cons call calls ih =>
    obtain ⟨numbered, coherent⟩ := heed_numbered obeys numbered coherent call
    have rest := ih numbered coherent
    rwa [List.append_assoc] at rest

theorem unborn_ends (h : Host σ) (state : ProcessState) (host : σ) :
    (unborn state host).Ends h [] :=
  ⟨⟨rfl, by simp⟩, rfl⟩

/-- Whatever is called and wherever the host fails, the envelopes are numbered in turn.

Each envelope that was committed is one that the host built when it was asked for it, and of each
state the first one was built with the number one, the second with two, and so on, in a count of 32
bits. An attempt that fails uses up no number, so the next one is made with the same. While fewer
envelopes begin than such a count has numbers, it does not begin again: the numbers are just those
from one on, and that of an attempt is one more than the envelopes that were committed before.

The running envelope is always of the state of the session, in the background none runs unless
background activities are recorded, and all but one of those that began have been ended. -/
theorem numbered_in_turn {h : Host σ} (obeys : h.Obeys) (c : Config) (state : ProcessState)
    (time : Millis) (host : σ) (calls : List Call) :
    let w := calls.foldl (heed h c) (start h c state time host)
    let asks := (unborn state host).register h c (.transition (.initial state) time :: calls)
    (births asks).map Prod.snd = w.begun ∧
      (∀ ask ∈ asks, ∀ e ∈ ask.begun, ∃ x, (h.buildInitial ask.params x).1 = .value e) ∧
      (∀ state, numbers state asks =
        (List.range' 1 (w.begun.countP (·.state == state))).map (· % 4294967296)) ∧
      Ask.InTurn asks ∧
      (w.begun.length < 4294967295 →
        (∀ state, numbers state asks = List.range' 1 (w.begun.countP (·.state == state))) ∧
        ∀ before ask after, asks = before ++ ask :: after →
          ask.params.number = (numbers ask.params.state before).length + 1) ∧
      (∀ e ∈ w.session.active, e.state = w.session.state) ∧
      (w.session.state = .background → c.backgroundActivityEnabled = false →
        w.session.active = none) ∧
      w.session.active.toList.length ≤ 1 ∧
      w.begun.length =
        (w.sent.filter (·.2.isTerminal)).length + w.session.active.toList.length := by
  intro w asks
  have begins : (Session.initial state).Coherent c :=
    ⟨by simp [Session.initial], by simp [Session.initial]⟩
  obtain ⟨numbered, coherent⟩ := register_numbered (c := c) obeys (unborn_numbered h state host)
    begins (.transition (.initial state) time :: calls)
  obtain ⟨xs, ⟨⟨order, _⟩, sent⟩, _⟩ := heedAll_ends (c := c)
    (.transition (.initial state) time :: calls) (unborn_ends h state host)
  rw [List.foldl_cons, ← start_eq] at coherent
  rw [List.foldl_cons, ← start_eq, List.nil_append] at numbered order sent
  have homes : ∀ ask ∈ asks, ∀ e ∈ ask.begun, e.state = ask.params.state := by
    intro ask member e begun
    obtain ⟨x, built⟩ := numbered.built ask member e begun
    exact obeys ask.params x e built
  have counted (state : ProcessState) : numbers state asks =
      (List.range' 1 (w.begun.countP (·.state == state))).map (· % 4294967296) := by
    rw [numbered.inTurn.numbers_eq homes, Ask.length_numbers, numbered.begun]
  refine ⟨?_, numbered.built, counted, numbered.inTurn, fun few => ⟨fun state => ?_, ?_⟩,
    coherent.state, ?_, ?_, ?_⟩
  · rw [Ask.envelopes_births, numbered.begun]
  · rw [counted, List.map_congr_left (g := id) fun n member => ?_, List.map_id]
    have inside := (List.mem_range'_1.mp member).2
    have fewer : w.begun.countP (·.state == state) ≤ _ := List.countP_le_length
    exact Nat.mod_eq_of_lt (by omega)
  · intro before ask after split
    exact numbered.inTurn.number_eq (by rw [numbered.begun]; exact few) split
  · intro background disabled
    rw [Option.eq_none_iff_forall_ne_some]
    intro e running
    have enabled := coherent.enabled (by rw [running]; rfl) background
    rw [disabled] at enabled
    cases enabled
  · exact Option.length_toList_le
  · rw [order, sent, List.length_append, List.length_map, List.length_map]

/-- A host that is busy at every second envelope: what it fails to begin is asked for again with the
same number, also after a crash. -/
theorem numbered_in_turn_of_busy :
    let h : Host Nat :=
      { buildInitial := fun p n => (if n % 2 = 1 then .error ⟨"busy"⟩
          else .value ⟨p.state.name, .session, p.start, none, p.state, []⟩, n + 1)
        buildFinal := fun p n => (.value p.envelope, n)
        prepare := fun _ _ n => (.value (), n) }
    let calls : List Call := [.transition .background 10, .transition .background 20,
      .checkpoint 25, .transition (.foreground false) 30, .transition (.crash "c") 40,
      .transition (.foreground true) 50]
    let w := calls.foldl (heed h .default) (start h .default .foreground 0 0)
    let asks := (unborn .foreground 0).register h .default
      (.transition (.initial .foreground) 0 :: calls)
    h.Obeys ∧ asks.map (fun a => (a.params.state, a.params.number, a.begun.isSome)) =
        [(.foreground, 1, true), (.background, 1, false), (.background, 1, true),
          (.foreground, 2, false), (.foreground, 2, true)] ∧
      numbers .foreground asks = [1, 2] ∧ numbers .background asks = [1] ∧
      Ask.InTurn asks ∧ w.begun.length = 3 ∧ ∀ before ask after, asks = before ++ ask :: after →
        ask.params.number = (numbers ask.params.state before).length + 1 := by
  intro h calls w asks
  have obeys : h.Obeys := by
    intro p n e built
    simp only [h] at built
    split at built
    · cases built
    · cases built
      rfl
  obtain ⟨_, _, _, inTurn, few, _⟩ := numbered_in_turn obeys .default .foreground 0 0 calls
  have begun : w.begun.length = 3 := by decide +kernel
  obtain ⟨inOrder, exact_⟩ := few (by rw [begun]; decide)
  have foregrounds : w.begun.countP (·.state == .foreground) = 2 := by decide +kernel
  have backgrounds : w.begun.countP (·.state == .background) = 1 := by decide +kernel
  refine ⟨obeys, by decide +kernel, ?_, ?_, inTurn, begun, exact_⟩
  · exact (inOrder .foreground).trans (congrArg (List.range' 1) foregrounds)
  · exact (inOrder .background).trans (congrArg (List.range' 1) backgrounds)

end Story

end Outbox
