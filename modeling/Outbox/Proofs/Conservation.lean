import Mathlib.Data.List.Induction
import Outbox.Proofs.Ledger
import Outbox.Proofs.Overlap

/-! # No delivery is lost silently

A delivery that was put in the queue stays there until something is told about it: that the
collector accepted it, that it was given up, or that the store had to delete payloads. Between
taking it out and telling so it is in the hand of a task, which goes on by itself.
-/

namespace Outbox

open Storage (Key Store)

namespace Stage

/-- The stage of a task that is between two of its steps: it goes on by itself, or deals with
files. -/
def isBetween (stage : Stage) : Bool := stage.isRunnable || stage.isWorking

end Stage

namespace Service

variable {s t : Service} {m : Move} {ms : List Move} {known ps : List Pending} {p q : Pending}
  {phase : Phase} {j : Nat} {id : String}

/-- No task is between two of its steps. -/
def AtRest (s : Service) : Prop := ∀ t ∈ s.tasks, t.stage.isBetween = false

instance (s : Service) : Decidable s.AtRest := inferInstanceAs (Decidable (∀ _ ∈ _, _))

/-- In one of these moves it happens. -/
def Happens (s : Service) (ms : List Move) (h : Happening) : Prop :=
  ∃ before m after, ms = before ++ m :: after ∧ h ∈ (s.run before).news m

/-- In one of these moves the collector accepts the delivery. -/
def Accepts (s : Service) (ms : List Move) (id : String) : Prop :=
  ∃ before m after, ms = before ++ m :: after ∧ (s.run before).accepts m = some id

/-- In one of these moves the collector accepts the delivery, and that is told in a later one. -/
def Delivers (s : Service) (ms : List Move) (p : Pending) : Prop :=
  ∃ before after, ms = before ++ after ∧ s.Accepts before p.id ∧
    (s.run before).Happens after (.event (.delivered p.endpoint p.id))

/-- It is reported in these moves that the delivery is given up, and told that it was. -/
def GivesUp (s : Service) (ms : List Move) (p : Pending) : Prop :=
  ∃ reason, s.Happens ms (.report (.drop p reason)) ∧
    s.Happens ms (.event (.dropped p.endpoint p.id reason))

/-- In one of these moves the store deletes the file of the delivery, and reports that. -/
def Prunes (s : Service) (ms : List Move) (p : Pending) : Prop :=
  ∃ before m after k, ms = before ++ m :: after ∧ p.key? = some k ∧
    k ∈ (s.run before).evicted m ∧ .report Store.pruneReport ∈ (s.run before).news m

/-! ## Longer runs -/

theorem accepted_concat (s : Service) (ms : List Move) (m : Move) :
    s.accepted (ms ++ [m]) = s.accepted ms ++ (s.run ms).arrivals m := by
  induction ms generalizing s with
  | nil => exact List.append_nil _
  | cons n ms ih =>
    rw [List.cons_append, accepted, ih, accepted, List.append_assoc]
    rfl

/-- New deliveries have not been attempted. -/
theorem origin_of_accepted (s : Service) (ms : List Move) : ∀ p ∈ s.accepted ms, p.origin = p := by
  induction ms generalizing s with
  | nil => simp [accepted]
  | cons m ms ih =>
    intro p member
    rcases List.mem_append.mp member with new | later
    · exact (s.arrivals_ids m).2.2.2 p new
    · exact ih (s.step m) p later

theorem happens_last {h : Happening} (now : h ∈ (s.run ms).news m) : s.Happens (ms ++ [m]) h :=
  ⟨ms, m, [], rfl, now⟩

theorem Happens.mono {h : Happening} (happens : s.Happens ms h) (m : Move) :
    s.Happens (ms ++ [m]) h := by
  obtain ⟨before, n, after, rfl, now⟩ := happens
  exact ⟨before, n, after ++ [m], by simp, now⟩

theorem Accepts.mono (accepts : s.Accepts ms id) (m : Move) : s.Accepts (ms ++ [m]) id := by
  obtain ⟨before, n, after, rfl, now⟩ := accepts
  exact ⟨before, n, after ++ [m], by simp, now⟩

theorem Delivers.mono (delivers : s.Delivers ms p) (m : Move) : s.Delivers (ms ++ [m]) p := by
  obtain ⟨before, after, rfl, accepts, told⟩ := delivers
  exact ⟨before, after ++ [m], by simp, accepts, told.mono m⟩

theorem GivesUp.mono (givesUp : s.GivesUp ms p) (m : Move) : s.GivesUp (ms ++ [m]) p := by
  obtain ⟨reason, reported, told⟩ := givesUp
  exact ⟨reason, reported.mono m, told.mono m⟩

theorem Prunes.mono (prunes : s.Prunes ms p) (m : Move) : s.Prunes (ms ++ [m]) p := by
  obtain ⟨before, n, after, k, rfl, gone⟩ := prunes
  exact ⟨before, n, after ++ [m], k, by simp, gone⟩

/-! ## What a task has in hand is vouched for -/

/-- That a delivery leaves the queue in this way is no secret: the collector has accepted it, or it
was reported to be given up. -/
def Vouched (s : Service) (ms : List Move) (p : Pending) : Phase → Prop
  | .answered a => a.isSuccess = true → s.Accepts ms p.id
  | .removing .delivered | .removed .delivered => s.Accepts ms p.id
  | .removing (.dropped reason _) | .removed (.dropped reason _) =>
    s.Happens ms (.report (.drop p reason))
  | .posted | .recording _ | .recorded => True

theorem Vouched.mono (vouched : s.Vouched ms p phase) (m : Move) :
    s.Vouched (ms ++ [m]) p phase := by
  cases phase with
  | answered a => exact fun success => (vouched success).mono m
  | removing ending | removed ending =>
    cases ending with
    | delivered => exact Accepts.mono vouched m
    | dropped reason onLane => exact Happens.mono vouched m
  | posted | recording time | recorded => trivial

theorem mem_news_of_mark {added : List Happening} {o : Outline} {h : Happening}
    (became : Becomes added o s (s.step m)) (mark : h ∈ added) : h ∈ s.news m := by
  rw [← became.news] at mark
  exact (List.mem_filter.mp mark).1

theorem stage_of_posted (hand : t.hand? j = some (p, .posted)) :
    ∃ purpose, t.stage? j = some (.posting p purpose) := by
  unfold hand? view at hand
  split at hand
  case h_2 => cases hand
  case h_1 stage at_ =>
    cases stage with
    | posting q purpose =>
      cases hand
      exact ⟨purpose, at_⟩
    | working w => cases w <;> cases hand
    | worked done => cases done <;> cases hand
    | _ => cases hand

/-- Whoever takes a delivery out of the queue tells so in its next step. -/
theorem stage_of_removed {ending : Ending} (hand : t.hand? j = some (p, .removed ending)) :
    ∃ purpose, t.stage? j = some (.worked (.removed p ending purpose)) := by
  unfold hand? view at hand
  split at hand
  case h_2 => cases hand
  case h_1 stage at_ =>
    cases stage with
    | working w => cases w <;> cases hand
    | worked done =>
      cases done <;> cases hand
      exact ⟨_, at_⟩
    | _ => cases hand

/-- An answer that means success accepts the delivery that was sent. -/
theorem accepts_answer {reply : Except TransportError Response}
    (hand : t.hand? j = some (p, .posted)) (success : (Answer.classify reply).isSuccess = true) :
    t.accepts (.answer j reply) = some p.id := by
  obtain ⟨purpose, at_⟩ := stage_of_posted hand
  cases reply with
  | error e => cases success
  | ok r =>
    have accepted : 200 ≤ r.status.val ∧ r.status.val ≤ 299 := by
      by_contra other
      simp only [Answer.classify, if_neg other] at success
      repeat' split at success
      all_goals cases success
    simp only [accepts, at_, if_pos accepted]

/-- Only a delivery whose answer means success is accepted. -/
theorem answered_of_accept {config : Config} {before : Phase}
    (verdict : before.verdict? config p = some .accept) :
    ∃ a, before = .answered a ∧ a.isSuccess = true := by
  cases before with
  | answered a =>
    refine ⟨a, rfl, ?_⟩
    cases a with
    | success => rfl
    | failure status =>
      simp only [Phase.verdict?, Answer.verdict] at verdict
      split at verdict <;> cases verdict
    | _ => cases verdict
  | recorded =>
    simp only [Phase.verdict?] at verdict
    split at verdict <;> cases verdict
  | _ => cases verdict

/-- A step of a task keeps what it has in hand vouched for. -/
theorem Vouched.act {added : List Happening} {o : Outline} (act : Act (s.run ms) j added o)
    (became : Becomes added o (s.run ms) (s.run (ms ++ [.advance j])))
    (vouched : ∀ q phase, (s.run ms).hand? j = some (q, phase) → s.Vouched ms q phase)
    (hand : (o.view j).hand? = some (p, phase)) : s.Vouched (ms ++ [.advance j]) p phase := by
  rw [run_concat] at became
  have onward {ps : List Pending} {o₀ : Outline} {later : List Happening}
      (next : Onward j ps o₀ later o) (within : later ⊆ added) :
      s.Vouched (ms ++ [.advance j]) p phase := by
    rcases next.own.2 with ⟨_, free⟩ | ⟨q, rest, rfl, _, view⟩
    · rw [free] at hand
      cases hand
    · rw [view] at hand
      cases hand
      exact happens_last (mem_news_of_mark became (within List.mem_cons_self))
  have was {q : Pending} {before : Phase} {rest : List Pending}
      (view : (s.run ms).view j = .has q before rest) : s.Vouched ms q before :=
    vouched q before (by rw [hand?, view]; rfl)
  cases act with
  | idle => exact (vouched p phase hand).mono _
  | goes known free away next | yields view next => exact onward next fun _ member => member
  | ends view next => exact onward next (List.subset_append_left _ _)
  | posts view found free =>
    rw [Outline.put_view_self] at hand
    cases hand
    trivial
  | holds view verdict =>
    rw [Outline.put_view_self] at hand
    cases hand
  | @accepts q before rest view verdict =>
    rw [Outline.put_view_self] at hand
    cases hand
    obtain ⟨a, rfl, success⟩ := answered_of_accept verdict
    exact Accepts.mono (was view success) _
  | refuses view verdict =>
    rw [Outline.put_view_self] at hand
    cases hand
    exact happens_last (mem_news_of_mark became List.mem_cons_self)
  | counts view verdict =>
    rw [Outline.put_view_self] at hand
    cases hand
    trivial

/-- Work on files keeps what a task has in hand vouched for. -/
theorem Vouched.deed {o : Outline} (deed : Deed (s.run ms) j o)
    (vouched : ∀ q phase, (s.run ms).hand? j = some (q, phase) → s.Vouched ms q phase)
    (hand : (o.view j).hand? = some (p, phase)) : s.Vouched (ms ++ [m]) p phase := by
  cases deed with
  | idle => exact (vouched p phase hand).mono m
  | fills =>
    rw [Outline.put_view_self] at hand
    cases hand
  | records =>
    rw [Outline.put_view_self] at hand
    cases hand
    trivial
  | @removes q ending rest view =>
    rw [Outline.put_view_self] at hand
    cases hand
    have before := vouched p (.removing ending) (by rw [hand?, view]; rfl)
    cases ending with
    | delivered => exact Accepts.mono before m
    | dropped reason onLane => exact Happens.mono before m

/-- Whatever tasks have in hand is vouched for, in every run. -/
theorem Initial.vouched (initial : s.Initial) (ms : List Move) :
    ∀ j p phase, (s.run ms).hand? j = some (p, phase) → s.Vouched ms p phase := by
  induction ms using List.reverseRecOn with
  | nil =>
    intro j p phase hand
    have free : s.hand? j = none := by
      rw [hand?, initial.idle]
      rfl
    cases free.symm.trans hand
  | append_singleton ms m ih =>
    intro j p phase hand
    rw [run_concat] at hand
    obtain ⟨added, o, moved, became⟩ := step_moved (s.run ms) m
    rw [hand?, became.view] at hand
    by_cases mover : m.task? = some j
    case neg => exact (ih j p phase ((moved.hand?_of_ne mover).symm.trans hand)).mono m
    cases moved with
    | quiet => exact (ih j p phase hand).mono m
    | arrives => cases mover
    | acts act =>
      cases mover
      exact Vouched.act act (run_concat s ms _ ▸ became) (ih j) hand
    | works deed =>
      cases mover
      exact Vouched.deed deed (ih j) hand
    | @answers _ q rest reply view =>
      cases mover
      rw [Outline.put_view_self] at hand
      cases hand
      intro success
      refine ⟨ms, _, [], rfl, accepts_answer ?_ success⟩
      rw [hand?, view]
      rfl

/-! ## The files of deliveries -/

/-- The id in the key is not to come, and the key is that of each delivery among `ps` with its
id. -/
structure Keyed (ps : List Pending) (s : Service) (k : Key) : Prop where
  used : ∀ n, s.made ≤ n → s.idOf n ≠ k.id
  own : ∀ p ∈ ps, p.id = k.id → p.key? = some k

/-- What the store deletes in a move, and what it has then, belongs to the deliveries with its
id. -/
theorem Keyed.step (ledger : s.Ledger known) (tidy : s.queue.Tidy) (within : ps ⊆ known)
    (stored : ∀ k ∈ s.queue.store.keys, Keyed ps s k) {k : Key}
    (found : k ∈ s.evicted m ∨ k ∈ (s.step m).queue.store.keys) :
    Keyed (ps ++ s.arrivals m) (s.step m) k := by
  have next := ledger.step tidy m
  obtain ⟨idOf, made, _⟩ := s.arrivals_ids m
  rcases mem_keys_step found with old | ⟨p, saved, keyed⟩
  · obtain ⟨used, own⟩ := stored k old
    refine ⟨fun n new => idOf ▸ used n (by omega), fun q member name => ?_⟩
    rcases List.mem_append.mp member with before | recent
    · exact own q before name
    · obtain ⟨n, low, _, same⟩ := id_of_arrival recent
      exact absurd (same.symm.trans name) (used n low)
  · have there : Known (known ++ s.arrivals m) p := by
      rcases List.mem_append.mp saved with recent | again
      · exact ⟨p, List.mem_append_right _ recent, rfl⟩
      · exact (ledger.of_recount (Option.mem_toList.mp again)).mono
    have id := (Pending.key?_eq_some keyed).2.2
    refine ⟨fun n new same => ?_, fun q member name => ?_⟩
    · obtain ⟨d, member, origin⟩ := there
      exact next.fresh n new d member ((Pending.id_of_origin origin).symm.trans
        (id.symm.trans same.symm))
    · have mine : q ∈ known ++ s.arrivals m := by
        rcases List.mem_append.mp member with old | new
        · exact List.mem_append_left _ (within old)
        · exact List.mem_append_right _ new
      have origin := next.eq_of_id ⟨q, mine, rfl⟩ there (name.trans id)
      rw [Pending.key?_of_origin origin, keyed]

/-- The state of the books after a run from `s`: the ledger is kept, and every file has the key of
its delivery. -/
structure Booked (s : Service) (ms : List Move) : Prop where
  order : (s.run ms).outline.InOrder
  ledger : (s.run ms).Ledger (s.queue.held ++ s.accepted ms)
  stored : ∀ k ∈ (s.run ms).queue.store.keys, Keyed (s.accepted ms) (s.run ms) k

theorem Booked.evicted (booked : s.Booked ms) {k : Key}
    (found : k ∈ (s.run ms).evicted m ∨ k ∈ ((s.run ms).step m).queue.store.keys) :
    Keyed (s.accepted (ms ++ [m])) ((s.run ms).step m) k := by
  rw [accepted_concat]
  have within : s.accepted ms ⊆ s.queue.held ++ s.accepted ms := List.subset_append_right _ _
  exact Keyed.step booked.ledger booked.order.tidy within booked.stored found

theorem Initial.booked (initial : s.Initial) (ids : s.DistinctIds)
    (unstored : ∀ k ∈ s.queue.store.keys, ∀ n, s.made ≤ n → s.idOf n ≠ k.id) (ms : List Move) :
    s.Booked ms := by
  induction ms using List.reverseRecOn with
  | nil =>
    refine ⟨initial.reachable.inOrder, ?_, fun k member => ⟨unstored k member, by simp [accepted]⟩⟩
    rw [accepted, List.append_nil]
    exact initial.ledger ids
  | append_singleton ms m ih =>
    refine ⟨?_, ?_, ?_⟩
    · rw [run_concat]
      exact step_inOrder ih.order m
    · rw [run_concat, accepted_concat, ← List.append_assoc]
      exact ih.ledger.step ih.order.tidy m
    · intro k member
      rw [run_concat] at member ⊢
      exact ih.evicted (.inr member)

/-! ## What becomes of a delivery -/

/-- A task took the delivery out of the queue and tells so next. -/
def Leaving (s : Service) (p : Pending) : Prop :=
  ∃ j q ending, s.hand? j = some (q, .removed ending) ∧ q.endpoint = p.endpoint ∧ q.id = p.id

/-- All that can become of a delivery. -/
def Accounted (s : Service) (ms : List Move) (p : Pending) : Prop :=
  (s.run ms).queue.Has p.endpoint p.id ∨ (s.run ms).Leaving p ∨ s.Delivers ms p ∨ s.GivesUp ms p ∨
    s.Prunes ms p

/-- What a task takes out of the queue is in its hand. -/
theorem leaving_of_removal (gone : t.removal? m = some q) (home : q.endpoint = p.endpoint)
    (name : q.id = p.id) : (t.step m).Leaving p := by
  obtain ⟨i, ending, purpose, rfl, at_⟩ := removal?_eq_some gone
  have hand : t.hand? i = some (q, .removing ending) := by
    rw [hand?, view_of_stage? at_]
    rfl
  exact ⟨i, q, ending, work_hand? hand, home, name⟩

/-- A task that took a delivery out of the queue keeps it in hand until it tells so. -/
theorem Leaving.step (leaving : (s.run ms).Leaving p) (vouched : ∀ j q phase,
    (s.run ms).hand? j = some (q, phase) → s.Vouched ms q phase) (m : Move) :
    ((s.run ms).step m).Leaving p ∨ s.Delivers (ms ++ [m]) p ∨ s.GivesUp (ms ++ [m]) p := by
  obtain ⟨j, q, ending, hand, home, name⟩ := leaving
  obtain ⟨purpose, at_⟩ := stage_of_removed hand
  by_cases mover : m = .advance j
  · subst mover
    obtain ⟨added, o, act, became⟩ := advance_acts (s.run ms) j
    obtain ⟨later, rfl⟩ := act.tells hand
    have told := mem_news_of_mark (m := .advance j) became
      (List.mem_append_right later (List.mem_singleton_self _))
    have promised := vouched j q _ hand
    refine .inr ?_
    cases ending with
    | delivered =>
      refine .inl ⟨ms, [.advance j], rfl, name ▸ promised, [], .advance j, [], rfl, ?_⟩
      rw [← home, ← name]
      exact told
    | dropped reason onLane =>
      refine .inr ⟨reason, Happens.mono ?_ _, ?_⟩
      · have same : Report.drop p reason = .drop q reason := by
          rw [Report.drop, Report.drop, home, name]
        exact same ▸ promised
      · rw [← home, ← name]
        exact happens_last told
  · refine .inl ⟨j, q, ending, ?_, home, name⟩
    by_cases self : m.task? = some j
    · have still : (s.run ms).step m = s.run ms := by
        cases m with
        | advance i => exact absurd (congrArg Move.advance (Option.some.inj self)) mover
        | work i =>
          cases self
          exact step_work_of_idle fun w working => nomatch at_.symm.trans working
        | answer i reply =>
          cases self
          simp only [Service.step, answer, at_]
        | _ => cases self
      rw [still]
      exact hand
    · obtain ⟨added, o, moved, became⟩ := step_moved (s.run ms) m
      rw [hand?, became.view, moved.hand?_of_ne self]
      exact hand

/-- What was in the queue, or is new, is there after a move, or is accounted for. -/
theorem Booked.has_step (booked : s.Booked ms) (mine : p ∈ s.accepted (ms ++ [m]))
    (there : (s.run ms).queue.Has p.endpoint p.id ∨ p ∈ (s.run ms).arrivals m) :
    s.Accounted (ms ++ [m]) p := by
  have present : (s.run ms).queue.Has p.endpoint p.id ∨
      ∃ q ∈ (s.run ms).arrivals m, q.endpoint = p.endpoint ∧ q.id = p.id :=
    there.imp_right fun new => ⟨p, new, rfl, rfl⟩
  rw [Accounted, run_concat]
  rcases Service.has_step present with kept | ⟨q, gone, home, name⟩ | ⟨k, gone, home, name⟩
  · exact .inl kept
  · exact .inr (.inl (leaving_of_removal gone home name))
  · have keyed := (booked.evicted (.inl gone)).own p mine name.symm
    have told := evicted_told (List.ne_nil_of_mem gone)
    exact .inr (.inr (.inr (.inr ⟨ms, m, [], k, rfl, keyed, gone, told⟩)))

/-- In every run every new delivery is accounted for. -/
theorem Initial.accounted (initial : s.Initial) (ids : s.DistinctIds)
    (unstored : ∀ k ∈ s.queue.store.keys, ∀ n, s.made ≤ n → s.idOf n ≠ k.id) (ms : List Move) :
    ∀ p ∈ s.accepted ms, s.Accounted ms p := by
  induction ms using List.reverseRecOn with
  | nil => simp [accepted]
  | append_singleton ms m ih =>
    intro p member
    have booked := initial.booked ids unstored ms
    have either := member
    rw [accepted_concat, List.mem_append] at either
    rcases either with old | new
    · rcases ih p old with held | leaving | delivers | givesUp | prunes
      · exact booked.has_step member (.inl held)
      · have vouched := initial.vouched ms
        rw [Accounted, run_concat]
        rcases leaving.step vouched m with still | delivers | givesUp
        · exact .inr (.inl still)
        · exact .inr (.inr (.inl delivers))
        · exact .inr (.inr (.inr (.inl givesUp)))
      · exact .inr (.inr (.inl (delivers.mono m)))
      · exact .inr (.inr (.inr (.inl (givesUp.mono m))))
      · exact .inr (.inr (.inr (.inr (prunes.mono m))))
    · exact booked.has_step member (.inr new)

/-- In every run of the service, whenever no task is between two of its steps: each delivery that
was put in the queue is still there under its id, or it was accepted by the collector and that was
told, or it was reported and told that it was given up, or the store deleted its file and reported
that it deleted files. -/
theorem no_silent_loss (initial : s.Initial) (ids : s.DistinctIds)
    (unstored : ∀ k ∈ s.queue.store.keys, ∀ n, s.made ≤ n → s.idOf n ≠ k.id) (ms : List Move)
    (rest : (s.run ms).AtRest) :
    ∀ p ∈ s.accepted ms,
      (∃ q, (s.run ms).queue.get? p.endpoint p.id = some q ∧ q.origin = p) ∨ s.Delivers ms p ∨
        s.GivesUp ms p ∨ s.Prunes ms p := by
  intro p member
  have booked := initial.booked ids unstored ms
  rcases initial.accounted ids unstored ms p member with ⟨q, held, home, name⟩ | leaving | told
  · have found := booked.order.tidy.get?_eq_some_iff.mpr ⟨home, name, held⟩
    have mine : Known (s.queue.held ++ s.accepted ms) p := ⟨p, List.mem_append_right _ member, rfl⟩
    have origin := booked.ledger.eq_of_id (booked.ledger.queue q held) mine name
    exact .inl ⟨q, found, origin.trans (s.origin_of_accepted ms p member)⟩
  · obtain ⟨j, q, ending, hand, _⟩ := leaving
    obtain ⟨purpose, at_⟩ := stage_of_removed hand
    obtain ⟨task, found, stage⟩ := Option.map_eq_some_iff.mp at_
    have between := rest task (List.mem_of_getElem? found)
    rw [stage] at between
    cases between
  · exact .inr told

/-- One delivery is accepted, and one waits for a connection. -/
theorem no_silent_loss_of_two_deliveries :
    let s := start .default countedIds 0 5 ⟨.absent, 1000⟩ ⟨.absent, 1000⟩
    let ms := [.call (.send .logs [7]), .advance 0, .work 0, .advance 0, .advance 0,
      .answer 0 (.ok (.ofStatus 200)), .advance 0, .work 0, .advance 0, .network .notReachable,
      .call (.send .crashes [8]), .advance 1, .work 1, .advance 1]
    (s.accepted ms).map (·.id) = ["d", "dd"] ∧ (s.run ms).AtRest ∧
      ∀ p ∈ s.accepted ms,
        (∃ q, (s.run ms).queue.get? p.endpoint p.id = some q ∧ q.origin = p) ∨ s.Delivers ms p ∨
          s.GivesUp ms p ∨ s.Prunes ms p := by
  intro s ms
  have initial : s.Initial := .start _ _ _ _ _ _
  have ids : s.DistinctIds := distinctIds_start countedIds_injective _ _ _ _ _
  have rest : (s.run ms).AtRest := by decide +kernel
  have unstored : ∀ k ∈ s.queue.store.keys, ∀ n, s.made ≤ n → s.idOf n ≠ k.id := by
    intro k member
    cases member
  exact ⟨by decide +kernel, rest, no_silent_loss initial ids unstored ms rest⟩

end Service

end Outbox
