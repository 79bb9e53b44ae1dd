import Outbox.Proofs.Acceptance
import Outbox.Proofs.EndReports

/-! # How often a delivery ends

The end of a delivery is told by one event, and one report says that it is given up. A task is busy
with a delivery from when it sends it, or begins to give it up, until the delivery has ended or is
left in the queue. As long as at most one task at a time is busy with a delivery, and none is once
it has ended, it ends once at most.
-/

namespace Outbox

namespace View

/-- The task is busy with a delivery: it has it in hand, and does not just leave it in the queue. -/
def Busy (config : Config) (id : String) (v : View) : Prop :=
  ∃ p phase, v.hand? = some (p, phase) ∧ p.id = id ∧ phase.verdict? config p ≠ some .hold

/-- The task gives up a delivery and has reported so. -/
def Dropping (id : String) (v : View) : Prop :=
  ∃ p reason onLane, p.id = id ∧
    (v.hand? = some (p, .removing (.dropped reason onLane)) ∨
      v.hand? = some (p, .removed (.dropped reason onLane)))

theorem Dropping.busy {id : String} {v : View} (dropping : v.Dropping id) (config : Config) :
    v.Busy config id := by
  obtain ⟨p, reason, onLane, name, hand | hand⟩ := dropping <;>
    exact ⟨p, _, hand, name, nofun⟩

end View

/-- What one move does to the delivery with an id. -/
inductive Fate (s : Service) (id : String) (added : List Happening) (o : Outline) : Prop where
  /-- It does not end and is not given up. -/
  | keeps (told : added.countP (Happening.isEndOf id) = 0)
      (reported : added.countP (Happening.isDropOf id) = 0)
      (stays : ∀ j, (s.view j).Dropping id → (o.view j).Dropping id)
  /-- A task tells that it has ended. -/
  | ends {j : Nat} {p : Pending} {ending : Ending}
      (hand : (s.view j).hand? = some (p, .removed ending)) (name : p.id = id)
      (told : added.countP (Happening.isEndOf id) = 1)
      (reported : added.countP (Happening.isDropOf id) = 0)
      (done : ¬(o.view j).Busy s.config id)
  /-- A task reports that it gives it up. -/
  | givesUp {j : Nat} (before : ¬(s.view j).Dropping id) (after : (o.view j).Dropping id)
      (told : added.countP (Happening.isEndOf id) = 0)
      (reported : added.countP (Happening.isDropOf id) = 1)
      (others : ∀ k, k ≠ j → (s.view k).Dropping id → (o.view k).Dropping id)

section

variable {s : Service} {id : String} {added : List Happening} {o : Outline} {m : Move} {j : Nat}

theorem View.Dropping.of_hand? {v w : View} (same : w.hand? = v.hand?) (dropping : v.Dropping id) :
    w.Dropping id := by
  unfold View.Dropping
  rw [same]
  exact dropping

theorem countP_drop_isDropOf (p : Pending) (reason : DropReason) (id : String) :
    [Happening.report (.drop p reason)].countP (Happening.isDropOf id) =
      if p.id = id then 1 else 0 := by
  rw [List.countP_singleton]
  exact if_congr (Report.isDropOf_drop p reason id) rfl rfl

/-- Only what was told before the task goes on tells an end. -/
theorem Onward.countP_isEndOf {ps : List Pending} {o o' : Outline} {later : List Happening}
    (next : Onward j ps o later o') : later.countP (Happening.isEndOf id) = 0 := by
  cases next <;> rfl

/-- Who decides what becomes of a delivery has not given it up yet. -/
theorem View.not_dropping_of_verdict {config : Config} {p : Pending} {phase : Phase}
    {rest : List Pending} {verdict : Verdict} (decided : phase.verdict? config p = some verdict) :
    ¬(View.has p phase rest).Dropping id := by
  rintro ⟨q, reason, onLane, _, hand | hand⟩ <;> cases hand <;> cases decided

theorem Onward.fate {ps : List Pending} {o₀ : Outline} {past later : List Happening}
    (next : Onward j ps o₀ later o) (idle : ¬(s.view j).Dropping id)
    (told : past.countP (Happening.isEndOf id) = 0)
    (reported : past.countP (Happening.isDropOf id) = 0)
    (others : ∀ k, k ≠ j → (s.view k).Near (o.view k)) : Fate s id (later ++ past) o := by
  have apart (k : Nat) (other : k ≠ j) (dropping : (s.view k).Dropping id) :
      (o.view k).Dropping id := dropping.of_hand? (others k other).hand?
  have stays (k : Nat) (dropping : (s.view k).Dropping id) : (o.view k).Dropping id := by
    by_cases self : k = j
    · exact absurd (self ▸ dropping) idle
    · exact apart k self dropping
  have noEnd : (later ++ past).countP (Happening.isEndOf id) = 0 := by
    rw [List.countP_append, next.countP_isEndOf, told]
  have drops : (later ++ past).countP (Happening.isDropOf id) =
      later.countP (Happening.isDropOf id) := by
    rw [List.countP_append, reported, Nat.add_zero]
  rcases next.own.2 with ⟨rfl, _⟩ | ⟨p, rest, rfl, _, view⟩
  · exact .keeps noEnd drops stays
  · rw [countP_drop_isDropOf] at drops
    by_cases name : p.id = id
    · rw [if_pos name] at drops
      refine .givesUp idle ⟨p, .stale, false, name, .inl ?_⟩ noEnd drops apart
      rw [view]
      rfl
    · rw [if_neg name] at drops
      exact .keeps noEnd drops stays

/-- What a step of a task does to one delivery. -/
theorem Act.fate {idOf : Nat → String} {home : Homes} (traced : s.outline.Traced idOf home)
    (act : Act s j added o) : Fate s id added o := by
  have near (k : Nat) (other : k ≠ j) : (s.view k).Near (o.view k) := act.near other
  have apart (k : Nat) (other : k ≠ j) (dropping : (s.view k).Dropping id) :
      (o.view k).Dropping id := dropping.of_hand? (near k other).hand?
  have stays (idle : ¬(s.view j).Dropping id) (k : Nat) (dropping : (s.view k).Dropping id) :
      (o.view k).Dropping id := by
    by_cases self : k = j
    · exact absurd (self ▸ dropping) idle
    · exact apart k self dropping
  have free (none_ : (s.view j).hand? = none) : ¬(s.view j).Dropping id := by
    rintro ⟨p, reason, onLane, _, hand | hand⟩ <;> rw [none_] at hand <;> cases hand
  cases act with
  | idle => exact .keeps rfl rfl fun _ dropping => dropping
  | goes known none_ away next =>
    have fate := next.fate (free none_) List.countP_nil List.countP_nil near
    rwa [List.append_nil] at fate
  | yields view next =>
    have fate := next.fate (free (by rw [view]; rfl)) List.countP_nil List.countP_nil near
    rwa [List.append_nil] at fate
  | posts view found due => exact .keeps rfl rfl (stays (free (by rw [view]; rfl)))
  | accepts view verdict | holds view verdict | counts view verdict =>
    refine .keeps rfl rfl (stays ?_)
    rw [view]
    exact View.not_dropping_of_verdict verdict
  | @refuses p phase rest reason view verdict =>
    have idle : ¬(s.view j).Dropping id := by
      rw [view]
      exact View.not_dropping_of_verdict verdict
    have drops := countP_drop_isDropOf p reason id
    by_cases name : p.id = id
    · rw [if_pos name] at drops
      refine .givesUp idle ⟨p, reason, true, name, .inl ?_⟩ rfl drops apart
      rw [Outline.put_view_self]
      rfl
    · rw [if_neg name] at drops
      exact .keeps rfl drops (stays idle)
  | @ends p ending rest later _ view next =>
    by_cases name : p.id = id
    · have nodup := (traced.of_has view).2
      have onward {q : Pending} {qs : List Pending} (next : q :: qs <:+ rest) : q.id ≠ id := by
        intro same
        refine (List.nodup_cons.mp nodup).1 (List.mem_map.mpr ⟨q, ?_, same.trans name.symm⟩)
        exact next.subset List.mem_cons_self
      have told : [Happening.event (ending.event p)].countP (Happening.isEndOf id) = 1 := by
        rw [List.countP_singleton]
        exact if_pos ((Event.isEndOf_event p ending id).mpr name)
      have hand : (s.view j).hand? = some (p, .removed ending) := by
        rw [view]
        rfl
      refine .ends hand name ?_ ?_ ?_
      · rw [List.countP_append, next.countP_isEndOf, told]
      · rcases next.own.2 with ⟨rfl, _⟩ | ⟨q, qs, rfl, further, _⟩
        · rfl
        · rw [List.countP_append, countP_drop_isDropOf, if_neg (onward further)]
          rfl
      · rintro ⟨q, phase, hand, same, _⟩
        rcases next.own.2 with ⟨_, free⟩ | ⟨x, qs, _, further, view⟩
        · rw [free] at hand
          cases hand
        · rw [view] at hand
          cases hand
          exact onward further same
    · refine next.fate ?_ ?_ rfl near
      · rintro ⟨q, reason, onLane, same, hand | hand⟩ <;> rw [view] at hand <;> cases hand
        exact name same
      · rw [List.countP_singleton]
        exact if_neg fun ends => name ((Event.isEndOf_event p ending id).mp ends)

theorem Moved.fate {home : Homes} (traced : s.outline.Traced s.idOf home)
    (moved : Moved s m added o) : Fate s id added o := by
  cases moved with
  | quiet => exact .keeps rfl rfl fun _ dropping => dropping
  | acts act => exact act.fate traced
  | @works j _ deed =>
    refine .keeps rfl rfl fun k dropping => ?_
    by_cases self : k = j
    · subst self
      cases deed with
      | idle => exact dropping
      | fills made one free away =>
        obtain ⟨p, reason, onLane, _, hand | hand⟩ := dropping <;> rw [free] at hand <;> cases hand
      | removes view =>
        obtain ⟨p, reason, onLane, name, hand | hand⟩ := dropping <;> rw [view] at hand <;>
          cases hand
        refine ⟨_, reason, onLane, name, .inr ?_⟩
        rw [Outline.put_view_self]
        rfl
      | records view =>
        obtain ⟨p, reason, onLane, name, hand | hand⟩ := dropping <;> rw [view] at hand <;>
          cases hand
    · refine dropping.of_hand? ((Moved.works deed).hand?_of_ne fun same => self ?_)
      exact (Option.some.inj same).symm
  | @answers j p rest reply view =>
    refine .keeps rfl rfl fun k dropping => ?_
    by_cases self : k = j
    · subst self
      obtain ⟨q, reason, onLane, name, hand | hand⟩ := dropping <;> rw [view] at hand <;> cases hand
    · refine dropping.of_hand? ((Moved.answers reply view).hand?_of_ne fun same => self ?_)
      exact (Option.some.inj same).symm
  | @arrives p o' n e type fills fresh =>
    refine .keeps rfl rfl fun k dropping => ?_
    exact dropping.of_hand? ((Moved.arrives e type fills fresh).hand?_of_ne nofun)

end

namespace Service

variable {s : Service} {home home' : Homes} {id : String} {m : Move}

/-- A task is busy with a delivery. -/
def Busy (s : Service) (j : Nat) (id : String) : Prop := (s.view j).Busy s.config id

/-- At most one task is busy with the delivery, and none once it has ended. -/
structure Exclusive (s : Service) (id : String) : Prop where
  one : ∀ i j, s.Busy i id → s.Busy j id → i = j
  afterEnd : 0 < s.endings id → ∀ j, ¬s.Busy j id

/-- No task takes the delivery up in these moves. -/
def Untaken (s : Service) (id : String) : List Move → Prop
  | [] => True
  | m :: ms => (∀ j, (s.step m).Busy j id → s.Busy j id) ∧ (s.step m).Untaken id ms

/-- The move neither sends the delivery nor puts it into the queue. -/
structure Spares (s : Service) (id : String) (m : Move) : Prop where
  unsent : ∀ e clock payload, .post e id clock payload ∉ s.news m
  uncounted : ∀ j p time, m = .work j → s.hand? j = some (p, .recording time) → p.id ≠ id
  absent : ∀ e, s.queue.get? e id = none → (s.step m).queue.get? e id = none

/-- In this run one event tells that the delivery has ended, at most, and one report says that it is
given up. Once the event has told it, the delivery is neither sent nor put into the queue. -/
structure EndsOnce (s : Service) (ms : List Move) (id : String) : Prop where
  told : (s.run ms).endings id ≤ 1
  reported : (s.run ms).drops id ≤ 1
  afterEnd : ∀ before m after, ms = before ++ m :: after → 0 < (s.run before).endings id →
    (s.run before).Spares id m

/-- What is known about a delivery that one task at most was busy with at a time. -/
structure Orderly (home : Homes) (s : Service) (id : String) : Prop where
  told : s.endings id ≤ 1
  known : 0 < s.endings id → ∃ e, home id = some e
  reported : s.drops id ≤ 1
  giving : 0 < s.drops id → 0 < s.endings id ∨ ∃ j, (s.view j).Dropping id

theorem Initial.silent (initial : s.Initial) (id : String) : s.endings id = 0 ∧ s.drops id = 0 := by
  induction initial with
  | start => exact ⟨rfl, rfl⟩
  | @load s initial ih =>
    have loaded := loadQueue_becomes s
    rw [loaded.endings, loaded.drops, List.countP_nil, List.countP_nil, Nat.zero_add, Nat.zero_add]
    exact ih

theorem Initial.orderly (initial : s.Initial) (home : Homes) (id : String) : s.Orderly home id := by
  obtain ⟨told, reported⟩ := initial.silent id
  exact ⟨told ▸ Nat.zero_le 1, by simp [told], reported ▸ Nat.zero_le 1, by simp [reported]⟩

theorem Sound.step_fate (sound : s.Sound home) (m : Move) (id : String) :
    ∃ added o, Moved s m added o ∧ Becomes added o s (s.step m) ∧ Fate s id added o := by
  obtain ⟨added, o, moved, became⟩ := step_moved s m
  exact ⟨added, o, moved, became, moved.fate sound.traced⟩

theorem Becomes.view {t : Service} {added : List Happening} {o : Outline}
    (became : Becomes added o s t) : t.view = o.view :=
  congrArg Outline.view became.outline

theorem Becomes.busy_iff {t : Service} {added : List Happening} {o : Outline}
    (became : Becomes added o s t) (j : Nat) : t.Busy j id ↔ (o.view j).Busy s.config id := by
  rw [Busy, became.view, became.config]

/-- Who tells the end of a delivery is not busy with it any more. -/
theorem Exclusive.idle_of_ended (sound : s.Sound home) (exclusive : s.Exclusive id)
    (ended : 0 < (s.step m).endings id) {j : Nat} (before : s.Busy j id) :
    ¬(s.step m).Busy j id := by
  intro busy
  obtain ⟨added, o, _, became, fate⟩ := sound.step_fate m id
  rw [became.endings] at ended
  cases fate with
  | keeps told | givesUp _ _ told =>
    rw [told, Nat.zero_add] at ended
    exact exclusive.afterEnd ended j before
  | @ends k p ending hand name told reported done =>
    have other : s.Busy k id := ⟨p, _, hand, name, nofun⟩
    rw [exclusive.one j k before other, became.busy_iff] at busy
    exact done busy

/-- If no task takes the delivery up, at most one stays busy with it. -/
theorem Exclusive.step (sound : s.Sound home) (exclusive : s.Exclusive id)
    (untaken : ∀ j, (s.step m).Busy j id → s.Busy j id) : (s.step m).Exclusive id where
  one i j busy busy' := exclusive.one i j (untaken i busy) (untaken j busy')
  afterEnd ended j busy := exclusive.idle_of_ended sound ended (untaken j busy) busy

theorem Exclusive.run (sound : s.Sound home) (exclusive : s.Exclusive id) {ms : List Move}
    (untaken : s.Untaken id ms) : ∀ done, done <+: ms → (s.run done).Exclusive id := by
  induction ms generalizing s home with
  | nil =>
    intro done first
    rw [List.prefix_nil.mp first]
    exact exclusive
  | cons m ms ih =>
    intro done first
    obtain ⟨home', _, next⟩ := sound.step m
    rcases List.prefix_cons_iff.mp first with rfl | ⟨done, rfl, later⟩
    · exact exclusive
    · exact ih next (exclusive.step sound untaken.1) untaken.2 done later

/-- A move keeps what is known about the delivery, if no two tasks are busy with it. -/
theorem Orderly.step (sound : s.Sound home) (orderly : s.Orderly home id)
    (more : home.Extends home') (before : s.Exclusive id) (after : (s.step m).Exclusive id) :
    (s.step m).Orderly home' id := by
  obtain ⟨added, o, _, became, fate⟩ := sound.step_fate m id
  have known (ended : 0 < s.endings id) : ∃ e, home' id = some e := by
    obtain ⟨e, there⟩ := orderly.known ended
    exact ⟨e, more id e there⟩
  have told := became.endings id
  have reported := became.drops id
  cases fate with
  | keeps noEnd noDrop stays =>
    rw [noEnd, Nat.zero_add] at told
    rw [noDrop, Nat.zero_add] at reported
    refine ⟨told ▸ orderly.told, told ▸ known, reported ▸ orderly.reported, ?_⟩
    rw [told, reported]
    intro dropped
    rcases orderly.giving dropped with ended | ⟨j, dropping⟩
    · exact .inl ended
    · exact .inr ⟨j, became.view ▸ stays j dropping⟩
  | @ends k p ending hand name oneEnd noDrop done =>
    have busy : s.Busy k id := ⟨p, _, hand, name, nofun⟩
    have first : s.endings id = 0 :=
      Nat.eq_zero_of_not_pos fun ended => before.afterEnd ended k busy
    rw [oneEnd, first] at told
    rw [noDrop, Nat.zero_add] at reported
    refine ⟨told ▸ Nat.le_refl 1, fun _ => ⟨p.endpoint, ?_⟩, reported ▸ orderly.reported, ?_⟩
    · exact more id _ (name ▸ sound.home_of_hand? hand)
    · exact fun _ => .inl (told ▸ Nat.one_pos)
  | @givesUp k idle dropping noEnd oneDrop others =>
    rw [noEnd, Nat.zero_add] at told
    have busy : (s.step m).Busy k id := (became.busy_iff k).mpr (dropping.busy _)
    -- whoever had given it up before would be busy with it as well
    have first : s.drops id = 0 := by
      apply Nat.eq_zero_of_not_pos
      intro dropped
      rcases orderly.giving dropped with ended | ⟨j, giving⟩
      · exact after.afterEnd (told ▸ ended) k busy
      · have other : j ≠ k := by
          rintro rfl
          exact idle giving
        have both := (became.busy_iff j).mpr ((others j other giving).busy _)
        exact other (after.one j k both busy)
    rw [oneDrop, first] at reported
    refine ⟨told ▸ orderly.told, told ▸ known, reported ▸ Nat.le_refl 1, ?_⟩
    exact fun _ => .inr ⟨k, became.view ▸ dropping⟩

theorem Orderly.run (sound : s.Sound home) (orderly : s.Orderly home id) (ms : List Move)
    (exclusive : ∀ done, done <+: ms → (s.run done).Exclusive id) :
    ∃ home', (s.run ms).Sound home' ∧ (s.run ms).Orderly home' id := by
  induction ms generalizing s home with
  | nil => exact ⟨home, sound, orderly⟩
  | cons m ms ih =>
    obtain ⟨home', more, next⟩ := sound.step m
    have before : s.Exclusive id := exclusive [] List.nil_prefix
    have after : (s.step m).Exclusive id :=
      exclusive [m] ((List.prefix_cons_inj m).mpr List.nil_prefix)
    apply ih next (orderly.step sound more before after)
    intro done first
    exact exclusive (m :: done) ((List.prefix_cons_inj m).mpr first)

/-- What has ended is left alone, if no task is busy with it. -/
theorem Orderly.spares (sound : s.Sound home) (orderly : s.Orderly home id)
    (before : s.Exclusive id) (after : (s.step m).Exclusive id) (ended : 0 < s.endings id) :
    s.Spares id m := by
  have uncounted (j : Nat) (p : Pending) (time : Millis)
      (recording : s.hand? j = some (p, .recording time)) : p.id ≠ id :=
    fun name => before.afterEnd ended j ⟨p, _, recording, name, nofun⟩
  obtain ⟨e, known⟩ := orderly.known ended
  refine ⟨?_, fun j p time _ => uncounted j p time, ?_⟩
  · intro f clock payload posted
    obtain ⟨task, p, purpose, current, _, view, _, _, _, same, stepped⟩ := post_step posted
    obtain ⟨added, o, _, became, _⟩ := sound.step_fate m id
    have later : 0 < (s.step m).endings id := by
      rw [became.endings]
      exact Nat.add_pos_right _ ended
    have name : current.id = id := by
      injection same with _ name
      exact name.symm
    have there : ((s.note (.post f current.id s.clock current.payload)).stage? task).isSome := by
      obtain ⟨purpose, at_⟩ := stage_of_holds view
      show (s.stage? task).isSome
      simp [at_]
    refine after.afterEnd later task ⟨current, .posted, ?_, name, nofun⟩
    rw [stepped, view_setStage there, Function.update_self]
    rfl
  · exact fun f absent => sound.not_reinserted known uncounted absent

/-- A delivery ends once at most if at most one task at a time is busy with it, and none once it has
ended. -/
theorem Orderly.endsOnce (sound : s.Sound home) (orderly : s.Orderly home id) {ms : List Move}
    (exclusive : ∀ done, done <+: ms → (s.run done).Exclusive id) : s.EndsOnce ms id := by
  obtain ⟨_, _, last⟩ := orderly.run sound ms exclusive
  refine ⟨last.told, last.reported, ?_⟩
  rintro before m after rfl ended
  have first : before <+: before ++ m :: after := List.prefix_append _ _
  have second : before ++ [m] <+: before ++ m :: after := by
    rw [List.prefix_append_right_inj]
    exact (List.prefix_cons_inj m).mpr List.nil_prefix
  obtain ⟨_, sound', orderly'⟩ := orderly.run sound before fun done within =>
    exclusive done (within.trans first)
  have next := exclusive _ second
  rw [run_concat] at next
  exact orderly'.spares sound' (exclusive _ first) next ended

end Service

end Outbox
