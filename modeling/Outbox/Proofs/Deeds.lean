import Outbox.Proofs.Acts

/-! # What dealing with files can do

Only dealing with files changes the queue: it puts new deliveries in, takes one out, or stores one
again after a failed attempt.
-/

namespace Outbox

namespace Outline

/-- Another queue. -/
def withQueue (o : Outline) (queue : Queue) : Outline := { o with queue }

/-- One more delivery was made and put in the queue. -/
def enqueue (o : Outline) (p : Pending) : Outline :=
  { o with made := o.made + 1, queue := (o.queue.save p).1 }

end Outline

/-- Some deliveries were made one after the other, each with the next id. -/
inductive Fills (idOf : Nat → String) : Outline → List Pending → Outline → Prop where
  | nil (o : Outline) : Fills idOf o [] o
  | cons {o o' : Outline} {ps : List Pending} (p : Pending) (id : p.id = idOf o.made)
      (others : Fills idOf (o.enqueue p) ps o') : Fills idOf o (p :: ps) o'

/-- What dealing with files for a task does. -/
inductive Deed (s : Service) (id : Nat) : Outline → Prop where
  | idle (waits : ∀ p phase, (s.view id).hand? = some (p, phase) →
      (∀ time, phase ≠ .recording time) ∧ ∀ ending, phase ≠ .removing ending) :
      Deed s id s.outline
  /-- New deliveries are in the queue, and the task may go on with one of them. -/
  | fills {ps known : List Pending} {o : Outline} (made : Fills s.idOf s.outline ps o)
      (one : known = [] ∨ ∃ p ∈ ps, known = [p]) (free : (s.view id).hand? = none)
      (away : (s.view id).position = .away) : Deed s id (o.put id (.idle known))
  | removes {p : Pending} {ending : Ending} {rest : List Pending}
      (view : s.view id = .has p (.removing ending) rest) :
      Deed s id ((s.outline.withQueue (s.queue.remove p).1).put id (.has p (.removed ending) rest))
  | records {p : Pending} {time : Millis} {rest : List Pending}
      (view : s.view id = .has p (.recording time) rest) :
      Deed s id ((s.outline.withQueue (s.queue.recordFailure p time).1).put id
        (.has (p.failed time) .recorded rest))

namespace Service

variable {s t u : Service} {o : Outline} {id : Nat}

/-- From `s` to `t` some deliveries were put in the queue. -/
def Filled (ps : List Pending) (s t : Service) : Prop :=
  ∃ o, Fills s.idOf s.outline ps o ∧ Becomes [] o s t

theorem Quiet.filled (quiet : Quiet s t) : Filled [] s t := ⟨_, .nil _, quiet⟩

theorem Filled.quiet {ps : List Pending} (filled : Filled ps s t) (quiet : Quiet t u) :
    Filled ps s u := by
  obtain ⟨o, fills, became⟩ := filled
  exact ⟨o, fills, became.quiet quiet⟩

theorem Quiet.fill {ps : List Pending} (quiet : Quiet s t) (filled : Filled ps t u) :
    Filled ps s u := by
  obtain ⟨o, fills, became⟩ := filled
  rw [quiet.outline, Becomes.idOf quiet] at fills
  exact ⟨o, fills, quiet.then became⟩

theorem Filled.cons {p : Pending} {ps : List Pending} (id : p.id = s.idOf s.made)
    (first : Becomes [] (s.outline.enqueue p) s t) (others : Filled ps t u) :
    Filled (p :: ps) s u := by
  obtain ⟨o, fills, became⟩ := others
  rw [first.outline, first.idOf] at fills
  exact ⟨o, .cons p id fills, first.trans became⟩

theorem enqueue_id (s : Service) (e : Endpoint) (payload : Bytes) :
    (s.enqueue e payload).2.1.id = s.idOf s.made := rfl

theorem enqueue_becomes (s : Service) (e : Endpoint) (payload : Bytes) :
    Becomes [] (s.outline.enqueue (s.enqueue e payload).2.1) s (s.enqueue e payload).1 := by
  let p := Pending.make (s.idOf s.made) (.wrap s.made) e payload s.clock
  have saved : Becomes [] (s.outline.enqueue p) s
      { s with queue := (s.queue.save p).1, made := s.made + 1 } :=
    ⟨rfl, rfl, Nat.le_refl _, ⟨[], rfl, rfl⟩, rfl⟩
  exact saved.quiet (report_quiet (s.queue.save_plain p))

theorem enqueue_filled (s : Service) (e : Endpoint) (payload : Bytes) :
    Filled [(s.enqueue e payload).2.1] s (s.enqueue e payload).1 :=
  .cons (enqueue_id s e payload) (enqueue_becomes s e payload) (Quiet.refl _).filled

theorem snapshotKey?_quiet (s : Service) (e : Envelope) : Quiet s (s.snapshotKey? e).1 := by
  unfold snapshotKey?
  split
  · exact .refl s
  · apply report_quiet
    intro r member
    rw [List.mem_singleton] at member
    subst member
    exact Report.plain_of_start (c := 'C') (head?_toList_append (by decide)) (by decide)

theorem storeSnapshot_quiet (s : Service) (e : Envelope) : Quiet s (s.storeSnapshot e).1 := by
  have keyed := snapshotKey?_quiet s e
  unfold storeSnapshot
  split
  case h_1 t found =>
    rw [found] at keyed
    exact keyed
  case h_2 t key found =>
    rw [found] at keyed
    exact (keyed.trans (withSnapshots_quiet t _)).trans
      (report_quiet (t.snapshots.put_plain key (.ofBytes e.encode)))

theorem deleteSnapshot_quiet (s : Service) (e : Envelope) : Quiet s (s.deleteSnapshot e) := by
  have keyed := snapshotKey?_quiet s e
  unfold deleteSnapshot
  split
  case h_1 t found =>
    rw [found] at keyed
    exact keyed
  case h_2 t key found =>
    rw [found] at keyed
    exact (keyed.trans (withSnapshots_quiet t _)).trans
      (report_quiet (t.snapshots.delete_plain key))

theorem writeSnapshot_quiet (s : Service) (e : Envelope) : Quiet s (s.writeSnapshot e) := by
  have stored := storeSnapshot_quiet s e
  unfold writeSnapshot
  split
  case h_1 t found =>
    rw [found] at stored
    split
    · exact stored.trans (deleteSnapshot_quiet t e)
    · exact stored
  case h_2 t found =>
    rw [found] at stored
    exact stored

theorem persistFinal_filled (s : Service) (e : Envelope) :
    Filled [(s.persistFinal e).2.1] s (s.persistFinal e).1 := by
  have enqueued := enqueue_filled s e.endpoint e.body
  unfold persistFinal
  dsimp only
  split
  · exact enqueued.quiet (deleteSnapshot_quiet _ e)
  · exact enqueued.quiet (storeSnapshot_quiet _ e)

theorem dropSnapshot_quiet (s : Service) (key : Storage.Key) : Quiet s
    (({ s with snapshots := (s.snapshots.delete key).1 } : Service).report
      (s.snapshots.delete key).2) :=
  (withSnapshots_quiet s _).trans (report_quiet (s.snapshots.delete_plain key))

theorem resurrectionFail_quiet (s : Service) (key : Storage.Key) {what cause : String} {c : Char}
    (first : what.toList.head? = some c) (other : c ≠ 'D') : Quiet s
    (s.report [⟨.payloadResurrectionFail, what ++ " snapshot " ++ key.name,
      some (.error cause)⟩]) := by
  apply report_quiet
  intro r member
  rw [List.mem_singleton] at member
  subst member
  exact Report.plain_of_start (head?_toList_append (head?_toList_append first)) other

theorem requeue_filled (s : Service) (keys : List Storage.Key) :
    ∃ ps, Filled ps s (s.requeue keys).1 := by
  induction keys generalizing s with
  | nil => exact ⟨[], (Quiet.refl s).filled⟩
  | cons key keys ih =>
    have loaded := report_quiet (s := s) (s.snapshots.loadBytes_plain key)
    unfold requeue
    dsimp only
    split
    · exact ih s
    · split
      · obtain ⟨ps, filled⟩ := ih (s.report (s.snapshots.loadBytes key).1)
        exact ⟨ps, loaded.fill filled⟩
      · obtain ⟨ps, filled⟩ := ih _
        refine ⟨ps, ((loaded.trans ?_).trans (dropSnapshot_quiet _ key)).fill filled⟩
        exact resurrectionFail_quiet _ key (c := 'U') (by decide) (by decide)
      · split
        · obtain ⟨ps, filled⟩ := ih _
          refine ⟨ps, ((loaded.trans ?_).trans (dropSnapshot_quiet _ key)).fill filled⟩
          exact resurrectionFail_quiet _ key (c := 'U') (by decide) (by decide)
        case h_2 e _ =>
          have enqueued :=
            enqueue_becomes (s.report (s.snapshots.loadBytes key).1) e.endpoint e.body
          have id := enqueue_id (s.report (s.snapshots.loadBytes key).1) e.endpoint e.body
          split
          · obtain ⟨ps, filled⟩ := ih _
            exact ⟨_, loaded.fill (.cons id enqueued ((dropSnapshot_quiet _ key).fill filled))⟩
          · obtain ⟨ps, filled⟩ := ih _
            exact ⟨_, loaded.fill (.cons id enqueued filled)⟩

theorem resurrect_filled (s : Service) : ∃ ps, Filled ps s s.resurrect.1 := by
  obtain ⟨ps, filled⟩ := requeue_filled (s.report s.snapshots.stored.2) s.snapshots.stored.1
  exact ⟨ps, (report_quiet s.snapshots.stored_plain).fill filled⟩

/-- After filling the queue the task may go on with one of the new deliveries. -/
theorem Filled.deed {ps known : List Pending} (filled : Filled ps s t)
    (there : (s.stage? id).isSome) (one : known = [] ∨ ∃ p ∈ ps, known = [p])
    (idle : s.view id = .idle []) {stage : Stage}
    (shown : stage.view = .idle known) :
    ∃ o, Deed s id o ∧ Becomes [] o s (t.setStage id stage) := by
  obtain ⟨o, fills, became⟩ := filled
  have placed := became.trans (setStage_becomes (became.isSome there) stage)
  rw [became.outline, shown] at placed
  exact ⟨_, .fills fills one (by rw [idle]; rfl) (by rw [idle]; rfl), placed⟩

/-- Dealing with files for a task is one of the deeds. -/
theorem work_deeds (s : Service) (id : Nat) : ∃ o, Deed s id o ∧ Becomes [] o s (s.work id) := by
  unfold work
  split
  case h_1 w at_ =>
    have there : (s.stage? id).isSome := by simp [at_]
    have shown := view_of_stage? at_
    cases w with
    | enqueue e payload =>
      exact (enqueue_filled s e payload).deed there
        (.inr ⟨_, List.mem_singleton_self _, rfl⟩) shown rfl
    | persist e =>
      exact (persistFinal_filled s e).deed there
        (.inr ⟨_, List.mem_singleton_self _, rfl⟩) shown rfl
    | cache e => exact (writeSnapshot_quiet s e).filled.deed there (.inl rfl) shown rfl
    | discard e outcome => exact (deleteSnapshot_quiet s e).filled.deed there (.inl rfl) shown rfl
    | resurrect =>
      obtain ⟨ps, filled⟩ := resurrect_filled s
      exact filled.deed there (.inl rfl) shown rfl
    | remove p ending purpose =>
      have removed : Becomes [] (s.outline.withQueue (s.queue.remove p).1) s
          { s with queue := (s.queue.remove p).1 } :=
        ⟨rfl, rfl, Nat.le_refl _, ⟨[], rfl, rfl⟩, rfl⟩
      have told := removed.quiet (report_quiet (s.queue.remove_plain p))
      have placed := told.trans (setStage_becomes (told.isSome there)
        (.worked (.removed p ending purpose)))
      rw [told.outline] at placed
      exact ⟨_, .removes shown, placed⟩
    | record p time purpose =>
      have recorded : Becomes [] (s.outline.withQueue (s.queue.recordFailure p time).1) s
          { s with queue := (s.queue.recordFailure p time).1 } :=
        ⟨rfl, rfl, Nat.le_refl _, ⟨[], rfl, rfl⟩, rfl⟩
      have told := recorded.quiet (report_quiet (s.queue.save_plain (p.failed time)))
      have placed := told.trans (setStage_becomes (told.isSome there)
        (.worked (.recorded (p.failed time) time purpose)))
      rw [told.outline] at placed
      exact ⟨_, .records shown, placed⟩
  case h_2 other =>
    refine ⟨_, .idle ?_, Quiet.refl s⟩
    intro p phase inHand
    rw [view] at inHand
    split at inHand
    case h_2 => cases inHand
    case h_1 stage found =>
      cases stage with
      | working w => exact absurd found (other w)
      | posting q purpose | answered q a purpose => cases inHand; simp
      | worked done =>
        cases done with
        | removed q ending purpose | recorded q time purpose => cases inHand; simp
        | _ => cases inHand
      | _ => cases inHand

/-- An answer reaches a task that sent a delivery, or does nothing to deliveries. -/
theorem answer_becomes (s : Service) (id : Nat) (a : Answer) :
    (∃ p rest, s.view id = .has p .posted rest ∧
      Becomes [] (s.outline.put id (.has p (.answered a) rest)) s (s.answer id a)) ∨
    ((∀ p, (s.view id).hand? ≠ some (p, .posted)) ∧ Quiet s (s.answer id a)) := by
  unfold answer
  split
  case h_1 p purpose at_ =>
    exact .inl ⟨p, purpose.rest, view_of_stage? at_,
      setStage_becomes (by simp [at_]) (.answered p a purpose)⟩
  case h_2 e at_ =>
    exact .inr ⟨by rw [view_of_stage? at_]; simp [Stage.view, View.idle], setStage_quiet at_ rfl⟩
  case h_3 posting asking =>
    refine .inr ⟨?_, .refl s⟩
    intro p inHand
    rw [view] at inHand
    split at inHand
    case h_2 => cases inHand
    case h_1 stage found =>
      cases stage with
      | posting q purpose => exact posting q purpose found
      | answered q a purpose => cases inHand
      | working w => cases w <;> cases inHand
      | worked done => cases done <;> cases inHand
      | _ => cases inHand

/-- An envelope that is sent arrives in the queue at once, and a task is there to send it, or it is
dealt with later. -/
theorem sendEnvelope_becomes (s : Service) (e : Envelope) (type : SnapshotType) :
    (∃ p o n, Fills s.idOf s.outline [p] o ∧ o.view n = .idle [] ∧
      Becomes [] (o.put n (.idle [p])) s (s.sendEnvelope e type)) ∨
    Quiet s (s.sendEnvelope e type) := by
  cases type with
  | normalEnd | periodic => exact .inr (spawn_quiet s rfl)
  | crash =>
    have marked : Quiet s (s.markFinalized e) := .aside rfl rfl rfl rfl rfl rfl rfl
    obtain ⟨o, fills, became⟩ := marked.fill (persistFinal_filled (s.markFinalized e) e)
    have woken := became.quiet (wake_quiet _ ((s.markFinalized e).persistFinal e).1.tasks.length)
    have added := woken.trans (addTask_becomes _ ⟨true, none, .spawned (.sendFinal e
      ((s.markFinalized e).persistFinal e).2.1 ((s.markFinalized e).persistFinal e).2.2)⟩)
    rw [woken.outline] at added
    have fresh : o.view ((s.markFinalized e).persistFinal e).1.tasks.length = .idle [] := by
      rw [← became.outline]
      exact view_length _
    exact .inl ⟨_, o, _, fills, fresh, added⟩

end Service

end Outbox
