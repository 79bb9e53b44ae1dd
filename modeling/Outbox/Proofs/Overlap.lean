import Outbox.Proofs.Endings

/-! # When a delivery ends twice

A replay gives up a delivery that it remembers, without the lane and without looking at the queue
again. If another task is busy with the delivery then, or the delivery has ended already, nothing
keeps it from ending once more: it is enough that the tasks go on.
-/

namespace Outbox

/-- What a task does next with a delivery that it does not leave in the queue. -/
def Verdict.phase? (clock : Millis) : Verdict → Option Phase
  | accept => some (.removing .delivered)
  | hold => none
  | refuse reason => some (.removing (.dropped reason true))
  | count => some (.recording clock)

section

variable {s : Service} {id : String} {added : List Happening} {o : Outline} {j : Nat} {p : Pending}
  {phase : Phase}

/-- A task does what is decided about the delivery in its hand. -/
theorem Act.follows {verdict : Verdict} (act : Act s j added o)
    (hand : (s.view j).hand? = some (p, phase))
    (decided : phase.verdict? s.config p = some verdict) :
    (o.view j).hand? = (verdict.phase? s.clock).map fun next => (p, next) := by
  cases act with
  | idle waits =>
    have waiting := waits p phase hand
    cases phase <;> cases waiting <;> cases decided
  | goes known free away next =>
    rw [free] at hand
    cases hand
  | yields view next | posts view found free =>
    rw [view] at hand
    cases hand
  | ends view next =>
    rw [view] at hand
    cases hand
    cases decided
  | accepts view decided' | holds view decided' | refuses view decided' | counts view decided' =>
    rw [view] at hand
    cases hand
    obtain rfl := Option.some.inj (decided.symm.trans decided')
    rw [Outline.put_view_self]
    rfl

/-- A task tells the end of the delivery that it took from the queue. -/
theorem Act.tells {ending : Ending} (act : Act s j added o)
    (hand : (s.view j).hand? = some (p, .removed ending)) :
    ∃ later, added = later ++ [.event (ending.event p)] := by
  cases act with
  | idle waits =>
    have waiting := waits p (.removed ending) hand
    cases waiting
  | goes known free away next =>
    rw [free] at hand
    cases hand
  | yields view next | posts view found free =>
    rw [view] at hand
    cases hand
  | ends view next =>
    rw [view] at hand
    cases hand
    exact ⟨_, rfl⟩
  | accepts view decided | holds view decided | refuses view decided | counts view decided =>
    rw [view] at hand
    cases hand
    cases decided

/-- The delivery in hand is taken from the queue. -/
theorem Deed.takes {ending : Ending} (deed : Deed s j o)
    (hand : (s.view j).hand? = some (p, .removing ending)) :
    (o.view j).hand? = some (p, .removed ending) := by
  cases deed with
  | idle waits => exact absurd rfl ((waits p (.removing ending) hand).2 ending)
  | fills made one free away =>
    rw [free] at hand
    cases hand
  | removes view =>
    rw [view] at hand
    cases hand
    rw [Outline.put_view_self]
    rfl
  | records view =>
    rw [view] at hand
    cases hand

end

namespace Service

variable {s : Service} {home : Homes} {id : String} {m : Move} {i j : Nat} {p : Pending}
  {phase : Phase}

theorem untaken_append {ms ns : List Move} (first : s.Untaken id ms)
    (second : (s.run ms).Untaken id ns) : s.Untaken id (ms ++ ns) := by
  induction ms generalizing s with
  | nil => exact second
  | cons m ms ih => exact ⟨first.1, ih first.2 second⟩

/-- What others are busy with does not depend on the moves of a task. -/
theorem busy_step_of_ne (other : m.task? ≠ some i) : (s.step m).Busy i id ↔ s.Busy i id := by
  obtain ⟨added, o, moved, became⟩ := step_moved s m
  rw [became.busy_iff, Busy, View.Busy, View.Busy, moved.hand?_of_ne other]

theorem endings_step (s : Service) (m : Move) (id : String) :
    s.endings id ≤ (s.step m).endings id := by
  obtain ⟨added, o, _, became⟩ := step_moved s m
  rw [became.endings]
  exact Nat.le_add_left _ _

theorem endings_run (s : Service) (ms : List Move) (id : String) :
    s.endings id ≤ (s.run ms).endings id := by
  induction ms generalizing s with
  | nil => exact Nat.le_refl _
  | cons m ms ih => exact Nat.le_trans (endings_step s m id) (ih (s.step m))

theorem advance_hand? {verdict : Verdict} (hand : s.hand? j = some (p, phase))
    (decided : phase.verdict? s.config p = some verdict) :
    (s.step (.advance j)).hand? j = (verdict.phase? s.clock).map fun next => (p, next) := by
  obtain ⟨added, o, act, became⟩ := advance_acts s j
  show ((s.advance j).view j).hand? = _
  rw [became.view]
  exact act.follows hand decided

theorem work_hand? {ending : Ending} (hand : s.hand? j = some (p, .removing ending)) :
    (s.step (.work j)).hand? j = some (p, .removed ending) := by
  obtain ⟨o, deed, became⟩ := work_deeds s j
  show ((s.work j).view j).hand? = _
  rw [became.view]
  exact deed.takes hand

theorem answer_hand? (hand : s.hand? j = some (p, .posted))
    (reply : Except TransportError Response) :
    (s.step (.answer j reply)).hand? j = some (p, .answered (.classify reply)) := by
  rcases answer_becomes s j (.classify reply) with ⟨q, rest, view, became⟩ | ⟨idle, _⟩
  · rw [hand?, view] at hand
    cases hand
    show ((s.answer j (.classify reply)).view j).hand? = _
    rw [became.view, Outline.put_view_self]
    rfl
  · exact absurd hand (idle p)

/-- By its own moves a task brings a delivery to its end, whatever others are busy with. -/
def BringsToEnd (s : Service) (j : Nat) (id : String) : Prop :=
  ∃ ms, s.Untaken id ms ∧ s.endings id < (s.run ms).endings id ∧
    ∀ i, i ≠ j → s.Busy i id → (s.run ms).Busy i id

/-- A task that is busy with a delivery takes nothing up by its moves. -/
theorem Busy.untaken (busy : s.Busy j id) (mover : m.task? = some j) (i : Nat)
    (after : (s.step m).Busy i id) : s.Busy i id := by
  by_cases self : i = j
  · exact self ▸ busy
  · have other : m.task? ≠ some i := by
      rw [mover]
      exact fun same => self (Option.some.inj same).symm
    exact (busy_step_of_ne other).mp after

theorem BringsToEnd.step (mover : m.task? = some j) (busy : s.Busy j id)
    (next : (s.step m).BringsToEnd j id) : s.BringsToEnd j id := by
  obtain ⟨ms, untaken, more, others⟩ := next
  refine ⟨m :: ms, ⟨busy.untaken mover, untaken⟩, ?_, ?_⟩
  · exact Nat.lt_of_le_of_lt (endings_step s m id) more
  · intro i other before
    have apart : m.task? ≠ some i := by
      rw [mover]
      exact fun same => other (Option.some.inj same).symm
    exact others i other ((busy_step_of_ne apart).mpr before)

/-- When a task goes on that has taken its delivery from the queue, the end is told. -/
theorem endings_of_removed {ending : Ending} (hand : s.hand? j = some (p, .removed ending)) :
    s.endings p.id < (s.step (.advance j)).endings p.id := by
  obtain ⟨added, o, act, became⟩ := advance_acts s j
  obtain ⟨later, rfl⟩ := act.tells hand
  show s.endings p.id < (s.advance j).endings p.id
  rw [became.endings, List.countP_append, List.countP_singleton,
    Happening.isEndOf, if_pos ((Event.isEndOf_event p ending p.id).mpr rfl)]
  omega

theorem bringsToEnd_of_removed {ending : Ending} (hand : s.hand? j = some (p, .removed ending))
    (name : p.id = id) : s.BringsToEnd j id := by
  have busy : s.Busy j id := ⟨p, _, hand, name, nofun⟩
  refine ⟨[.advance j], ⟨busy.untaken rfl, trivial⟩, name ▸ endings_of_removed hand, ?_⟩
  intro i other before
  have apart : (Move.advance j).task? ≠ some i := fun same => other (Option.some.inj same).symm
  exact (busy_step_of_ne apart).mpr before

theorem bringsToEnd_of_removing {ending : Ending} (hand : s.hand? j = some (p, .removing ending))
    (name : p.id = id) : s.BringsToEnd j id :=
  .step (m := .work j) rfl ⟨p, _, hand, name, nofun⟩
    (bringsToEnd_of_removed (work_hand? hand) name)

/-- A task is about to store a delivery again, or will be after its next step. -/
def Counts (s : Service) (j : Nat) (id : String) : Prop :=
  ∃ p phase, s.hand? j = some (p, phase) ∧ p.id = id ∧
    ((∃ time, phase = .recording time) ∨ phase.verdict? s.config p = some .count)

/-- A task that is busy with a delivery can bring it to its end, unless it has to store it again. -/
theorem Busy.bringsToEnd (busy : s.Busy j id) : s.BringsToEnd j id ∨ s.Counts j id := by
  have ⟨p, phase, hand, name, heeds⟩ := busy
  cases decided : phase.verdict? s.config p with
  | some verdict =>
    have next := advance_hand? hand decided
    cases verdict with
    | accept | refuse reason =>
      exact .inl (.step (m := .advance j) rfl busy (bringsToEnd_of_removing next name))
    | count => exact .inr ⟨p, phase, hand, name, .inr decided⟩
    | hold => exact absurd decided heeds
  | none =>
    cases phase with
    | removed ending => exact .inl (bringsToEnd_of_removed hand name)
    | removing ending => exact .inl (bringsToEnd_of_removing hand name)
    | recording time => exact .inr ⟨p, _, hand, name, .inl ⟨time, rfl⟩⟩
    | answered a => cases decided
    | recorded =>
      simp only [Phase.verdict?] at decided
      split at decided <;> cases decided
    | posted =>
      have answered := answer_hand? hand (.ok (.ofStatus 200))
      have accepted : (Phase.answered (.classify (.ok (.ofStatus 200)))).verdict?
          (s.step (.answer j (.ok (.ofStatus 200)))).config p = some .accept := rfl
      have next := advance_hand? answered accepted
      have busy' : (s.step (.answer j (.ok (.ofStatus 200)))).Busy j id :=
        ⟨p, _, answered, name, nofun⟩
      exact .inl (.step (m := .answer j (.ok (.ofStatus 200))) rfl busy
        (.step (m := .advance j) rfl busy' (bringsToEnd_of_removing next name)))

/-- In this run the delivery ends twice, or it is put into the queue after its end. -/
def Spoilt (s : Service) (ms : List Move) (id : String) : Prop :=
  1 < (s.run ms).endings id ∨
    ∃ before m after, ms = before ++ m :: after ∧ 0 < (s.run before).endings id ∧
      ¬(s.run before).Spares id m

theorem EndsOnce.not_spoilt {ms : List Move} (once : s.EndsOnce ms id) : ¬s.Spoilt ms id := by
  rintro (twice | ⟨before, m, after, shape, ended, touched⟩)
  · exact Nat.not_lt_of_le once.told twice
  · exact touched (once.afterEnd before m after shape ended)

theorem Spoilt.after {ms ns : List Move} (spoilt : (s.run ms).Spoilt ns id) :
    s.Spoilt (ms ++ ns) id := by
  rcases spoilt with twice | ⟨before, m, after, rfl, ended, touched⟩
  · rw [← run_append] at twice
    exact .inl twice
  · rw [← run_append] at ended touched
    exact .inr ⟨ms ++ before, m, after, (List.append_assoc _ _ _).symm, ended, touched⟩

/-- Storing a delivery again puts it into the queue. -/
theorem spoilt_of_recording {time : Millis} (ended : 0 < s.endings id)
    (hand : s.hand? j = some (p, .recording time)) (name : p.id = id) :
    s.Spoilt [.work j] id :=
  .inr ⟨[], .work j, [], rfl, ended, fun spares => spares.uncounted j p time rfl hand name⟩

/-- A task that is busy with a delivery that has ended only has to go on, and the run is spoilt. -/
theorem Busy.spoils (busy : s.Busy j id) (ended : 0 < s.endings id) :
    ∃ ms, s.Untaken id ms ∧ s.Spoilt ms id := by
  rcases busy.bringsToEnd with ⟨ms, untaken, more, _⟩ | ⟨p, phase, hand, name, counts⟩
  · exact ⟨ms, untaken, .inl (Nat.lt_of_le_of_lt ended more)⟩
  · rcases counts with ⟨time, rfl⟩ | decided
    · exact ⟨[.work j], ⟨busy.untaken rfl, trivial⟩, spoilt_of_recording ended hand name⟩
    · have next := advance_hand? hand decided
      have busy' : (s.step (.advance j)).Busy j id := ⟨p, _, next, name, nofun⟩
      have ended' := Nat.lt_of_lt_of_le ended (endings_step s (.advance j) id)
      have spoilt : (s.run [.advance j]).Spoilt [.work j] id :=
        spoilt_of_recording ended' next name
      exact ⟨[.advance j, .work j], ⟨busy.untaken rfl, busy'.untaken rfl, trivial⟩, spoilt.after⟩

/-- Once one of two busy tasks can bring the delivery to its end, the other one can spoil it. -/
theorem BringsToEnd.spoils (brings : s.BringsToEnd j id) (other : i ≠ j) (busy : s.Busy i id) :
    ∃ ms, s.Untaken id ms ∧ s.Spoilt ms id := by
  obtain ⟨ms, untaken, more, others⟩ := brings
  have ended : 0 < (s.run ms).endings id := Nat.zero_lt_of_lt more
  obtain ⟨ns, untaken', spoilt⟩ := (others i other busy).spoils ended
  exact ⟨ms ++ ns, untaken_append untaken untaken', spoilt.after⟩

theorem Counts.onLane (counts : s.Counts j id) :
    ∃ p phase, s.hand? j = some (p, phase) ∧ p.id = id ∧ phase.onLane = true := by
  obtain ⟨p, phase, hand, name, counts⟩ := counts
  refine ⟨p, phase, hand, name, ?_⟩
  cases phase with
  | removing ending | removed ending =>
    rcases counts with ⟨time, same⟩ | decided
    · cases same
    · cases decided
  | _ => rfl

/-- If two tasks are busy with a delivery, or one is that has ended, they only have to go on. -/
theorem Sound.spoils (sound : s.Sound home) (overlap : ¬s.Exclusive id) :
    ∃ ms, s.Untaken id ms ∧ s.Spoilt ms id := by
  by_contra never
  refine overlap ⟨fun i j busy busy' => ?_, fun ended j busy => never (busy.spoils ended)⟩
  by_contra other
  rcases busy.bringsToEnd with brings | counts
  · exact never (brings.spoils (Ne.symm other) busy')
  · rcases busy'.bringsToEnd with brings | counts'
    · exact never (brings.spoils other busy)
    -- two tasks that store a delivery again would both be on the lane
    · obtain ⟨p, phase, hand, name, onLane⟩ := counts.onLane
      obtain ⟨q, phase', hand', name', onLane'⟩ := counts'.onLane
      exact other (sound.eq_of_hand? hand hand' (name.trans name'.symm) onLane onLane')

/-- A delivery ends once at most, however the tasks go on that are busy with it, exactly if at no
time two tasks are busy with it, and none is once it has ended. -/
theorem ends_once_iff (initial : s.Initial) (ids : s.DistinctIds) (id : String) (ms : List Move) :
    (∀ done, done <+: ms → (s.run done).Exclusive id) ↔
      ∀ done rest, done <+: ms → (s.run done).Untaken id rest → s.EndsOnce (done ++ rest) id := by
  obtain ⟨home, sound⟩ := initial.sound ids
  constructor
  · intro exclusive done rest first untaken
    obtain ⟨_, _, sound'⟩ := sound.run done
    have onward := (exclusive done first).run sound' untaken
    apply (initial.orderly home id).endsOnce sound
    intro part within
    rcases List.prefix_or_prefix_of_prefix within (List.prefix_append done rest) with early | late
    · exact exclusive part (early.trans first)
    · obtain ⟨further, rfl⟩ := late
      rw [run_append]
      exact onward further ((List.prefix_append_right_inj done).mp within)
  · intro once done first
    by_contra overlap
    obtain ⟨_, _, sound'⟩ := sound.run done
    obtain ⟨rest, untaken, spoilt⟩ := sound'.spoils overlap
    exact (once done rest first untaken).not_spoilt spoilt.after

/-- A service that finds nothing on disk and gives up deliveries that are older than a second. -/
def hasty : Service :=
  start { Config.default with maxPendingAge := 1000 } countedIds 0 0 ⟨.absent, 1000⟩ ⟨.absent, 1000⟩

/-- A delivery gets too old without a connection, and then two flushes give it up. -/
def giveUpTwice : List Move :=
  [.network .notReachable, .call (.send .logs [7]), .advance 0, .work 0, .advance 0,
    .network .unknown, .setClock 5000, .call .flush, .call .flush, .advance 1, .advance 2,
    .advance 3, .advance 4]

/-- While two flushes give a delivery up, the tasks only have to go on. -/
theorem ends_once_iff_of_two_flushes :
    ¬∀ done rest, done <+: giveUpTwice → (hasty.run done).Untaken "d" rest →
      hasty.EndsOnce (done ++ rest) "d" := by
  have ids : hasty.DistinctIds := distinctIds_start countedIds_injective _ _ _ _ _
  have initial : hasty.Initial := .start _ _ _ _ _ _
  let old : Pending := ⟨"d", .logs, [7], 0, 0, 0, none⟩
  have first : (hasty.run giveUpTwice).Busy 3 "d" :=
    ⟨old, .removing (.dropped .stale false), by decide +kernel, rfl, nofun⟩
  have second : (hasty.run giveUpTwice).Busy 4 "d" :=
    ⟨old, .removing (.dropped .stale false), by decide +kernel, rfl, nofun⟩
  rw [← ends_once_iff initial ids "d" giveUpTwice]
  intro exclusive
  have one := (exclusive giveUpTwice (List.prefix_refl _)).one 3 4 first second
  exact absurd one (by decide)

/-- In the end the delivery is reported twice to be given up, and two events tell that it ended. -/
theorem given_up_twice :
    let ms := giveUpTwice ++ [.work 3, .advance 3, .work 4, .advance 4]
    hasty.Initial ∧ hasty.DistinctIds ∧ (hasty.run ms).endings "d" = 2 ∧
      (hasty.run ms).drops "d" = 2 ∧ ¬hasty.EndsOnce ms "d" := by
  intro ms
  have told : (hasty.run ms).endings "d" = 2 := by decide +kernel
  have reported : (hasty.run ms).drops "d" = 2 := by decide +kernel
  refine ⟨.start _ _ _ _ _ _, distinctIds_start countedIds_injective _ _ _ _ _, told, reported, ?_⟩
  intro once
  have single := once.told
  rw [told] at single
  exact absurd single (by decide)

end Service

end Outbox
