import Mathlib.Data.List.Induction
import Outbox.Proofs.Checkpoints
import Outbox.Proofs.Overlap

/-! # Final forms that are not in the queue

When the queue has the final form of an envelope not on disk, the snapshot of the envelope is the
only copy. The task that sends it deletes the snapshot once it has told the end of the delivery, and
there is no other task that has to do with the final form. A checkpoint that begins later finds that
the id is remembered. But one that began before, and is written after it, takes the place of the
final form and is then taken back. So the only copy is kept exactly if there is no such checkpoint.
-/

namespace Outbox

open Storage (Key Store)

/-! ## Who has to do with a final form -/

/-- The move hands over a final form of the envelope with this key. -/
def Move.ends (k : Key) (m : Move) : Bool := m.final?.any fun e => e.key? = some k

/-- The envelope whose final form a job has to do with. -/
def Job.final? : Job → Option Envelope
  | deliver e type => if type.isTerminal then some e else none
  | sendFinal e _ _ => some e
  | _ => none

/-- The envelope whose final form is sent. -/
def Purpose.final? : Purpose → Option Envelope
  | final e _ => some e
  | send | replay _ _ _ => none

namespace Stage

/-- The envelope whose final form a task at this stage has to do with. -/
def final? : Stage → Option Envelope
  | sleeping _ job | spawned job | atWorkers job | starting job => job.final?
  | working (.persist e) | working (.discard e _) | worked (.persisted e _ _) => some e
  | working (.remove _ _ purpose) | working (.record _ _ purpose)
  | worked (.removed _ _ purpose) | worked (.recorded _ _ purpose)
  | atLane _ purpose | onLane _ purpose | posting _ purpose | answered _ _ purpose =>
    purpose.final?
  | _ => none

/-- The task sends the final form of the envelope, which is not on disk, as the delivery with this
id. -/
def Sends (e : Envelope) (id : String) : Stage → Prop
  | sleeping _ job | spawned job | atWorkers job | starting job =>
    ∃ p, job = .sendFinal e p false ∧ p.id = id
  | worked (.persisted f p durable) => f = e ∧ p.id = id ∧ durable = false
  | working (.remove p _ purpose) | working (.record p _ purpose)
  | worked (.removed p _ purpose) | worked (.recorded p _ purpose)
  | atLane p purpose | onLane p purpose | posting p purpose | answered p _ purpose =>
    purpose = .final e false ∧ p.id = id
  | _ => False

/-- If the task has to do with a final form of the envelope with this key, it sends this one. -/
def OnlySends (k : Key) (e : Envelope) (id : String) (stage : Stage) : Prop :=
  ∀ f, stage.final? = some f → f.key? = some k → stage.Sends e id

variable {a b : Stage} {e : Envelope} {id : String} {k : Key}

theorem Near.final? (near : Near a b) : b.final? = a.final? := by
  cases near <;> rfl

theorem Near.sends (near : Near a b) (sends : a.Sends e id) : b.Sends e id := by
  cases near with
  | refl | seated | entered => exact sends
  | counted => exact sends.elim

theorem Young.final? (young : Young a) : a.final? = none := by
  cases young <;> rfl

end Stage

section

variable {s : Service} {m : Move} {old new stage stage' : Stage} {p : Pending} {purpose : Purpose}
  {held : List (Pending × QueueReason)} {o : SendOutcome} {ps : List Pending} {e f : Envelope}
  {ep : Endpoint} {n j : Nat} {id : String}

theorem Purpose.final?_queuedResult (purpose : Purpose) (reason : QueueReason) :
    (Stage.finished (purpose.queuedResult reason)).final? = none := by
  cases purpose <;> rfl

theorem Tries.final? (tries : Tries p purpose held stage) (has : stage.final? = some f) :
    purpose.final? = some f := by
  cases tries with
  | held reason => exact absurd has (by simp [Purpose.final?_queuedResult])
  | waits | enters => exact has

theorem Replays.final? (replays : Replays ep n ps held stage) : stage.final? = none := by
  cases replays with
  | done | givesUp => rfl
  | tries tries => cases tries <;> rfl

theorem Replays.not_caches (replays : Replays ep n ps held stage) :
    stage ≠ .working (.cache e) := by
  rintro rfl
  cases replays with
  | tries tries => cases tries

theorem Concludes.not_caches (concludes : Concludes o purpose held stage) :
    stage ≠ .working (.cache e) := by
  rintro rfl
  cases concludes with
  | replays _ replays => exact replays.not_caches rfl

theorem Concludes.final? (concludes : Concludes o purpose held stage)
    (has : stage.final? = some f) : purpose.final? = some f := by
  cases concludes with
  | queued reason purpose => exact absurd has (by simp [Purpose.final?_queuedResult])
  | sent | handled => cases has
  | discards => exact has
  | replays _ replays => exact absurd has (by simp [replays.final?])

/-- A step makes no task have to do with another final form. -/
theorem Leads.final? (leads : Leads s old held new) (has : new.final? = some f) :
    old.final? = some f := by
  cases leads with
  | stays | asks | sits => exact has
  | persists e type terminal =>
    cases has
    exact if_pos terminal
  | triesFinal tries | triesPersisted tries => exact tries.final? has
  | triesEnqueued tries => cases tries.final? has
  | replays _ replays => exact absurd has (by simp [replays.final?])
  | ends concludes | retries concludes | skips _ concludes | holds _ concludes
  | limited concludes => exact concludes.final? has
  | ceiling | posts | accepts | refuses | counts => exact has
  | _ => cases has

theorem gets_final? (gets : stage.Gets s j m stage') : stage'.final? = stage.final? ∨
    stage'.final? = none := by
  cases gets with
  | works w => cases w <;> first | exact .inl rfl | exact .inr rfl
  | _ => exact .inl rfl

theorem newcomer_final? (new : stage.Newcomer s m) (has : stage.final? = some f) :
    m.final? = some f := by
  cases new with
  | call request =>
    cases request with
    | deliver => exact has
    | _ => cases has
  | flush => cases has
  | deliver => exact has
  | final => exact has

theorem Tries.sends (tries : Tries p (.final e false) held stage) (named : p.id = id) :
    stage.Sends e id ∨ stage.final? = none := by
  cases tries with
  | held => exact .inr rfl
  | waits | enters => exact .inl ⟨rfl, named⟩

/-- A task that sends a final form goes on to do so, or it has ended, unless it was about to tell
the end of the delivery. -/
theorem Leads.sends (tidy : s.queue.Tidy) (leads : Leads s old held new)
    (sends : old.Sends e id) : new.Sends e id ∨ new.final? = none ∨
      ∃ p ending purpose, old = .worked (.removed p ending purpose) ∧ p.id = id := by
  cases leads with
  | stays | asks | sits | ceiling | accepts | refuses | counts => exact .inl sends
  | triesFinal tries =>
    obtain ⟨p, ⟨⟩, named⟩ := sends
    exact (tries.sends named).imp_right .inl
  | triesPersisted tries =>
    obtain ⟨rfl, named, rfl⟩ := sends
    exact (tries.sends named).imp_right .inl
  -- only from here can it come to delete the snapshot
  | ends => exact .inr (.inr ⟨_, _, _, rfl, sends.2⟩)
  | retries concludes | holds _ concludes | limited concludes =>
    obtain ⟨rfl, named⟩ := sends
    cases concludes with
    | queued => exact .inr (.inl rfl)
    | discards terminal => cases terminal
    | handled other => exact absurd rfl (other _)
  | skips missing concludes =>
    obtain ⟨rfl, named⟩ := sends
    cases concludes with
    | discards terminal => cases terminal
    | handled => exact .inr (.inl rfl)
  | posts found =>
    obtain ⟨_, name, _⟩ := tidy.get?_eq_some_iff.mp found
    exact .inl ⟨sends.1, name.trans sends.2⟩
  | rejects | enqueues | persists | caches | ignores | flushes | flushesNone | fetches | fetchesNone
  | resurrects =>
    obtain ⟨_, none_, _⟩ := sends
    cases none_
  | replays due =>
    obtain ⟨_, none_, _⟩ := sends
    rcases due with rfl | ⟨_, rfl⟩ <;> cases none_
  | triesEnqueued | cached | discarded | resurrected | learns | joined => exact sends.elim

theorem gets_sends (gets : stage.Gets s j m stage') (sends : stage.Sends e id) :
    stage'.Sends e id := by
  cases gets with
  | works w =>
    cases w with
    | remove | record => exact sends
    | _ => exact sends.elim
  | hears => exact sends.elim
  | _ => exact sends

end

namespace Service

variable {s : Service} {m n : Move} {ms before after : List Move} {k : Key} {e f : Envelope}
  {p : Pending} {id : String} {i j : Nat} {stage : Stage} {b : Bytes} {durable : Bool}
  {late : Nat → Prop}

/-- The task has to do with a final form of the envelope with this key. -/
def Ends (s : Service) (k : Key) (j : Nat) : Prop :=
  ∃ stage e, s.stage? j = some stage ∧ stage.final? = some e ∧ e.key? = some k

theorem new_of_final (final : m.final? = some e) (missing : s.stage? j = none)
    (found : (s.step m).stage? j = some stage) : j = s.tasks.length := by
  have added {t : Service} (same : t.tasks = s.tasks) (task : Task)
      (found : (t.addTask task).stage? j = some stage) : j = s.tasks.length := by
    rw [stage?_addTask, stage?, same, ← stage?, missing] at found
    split at found
    · assumption
    · cases found
  cases m with
  | call request => exact added (t := { s with ready := s.tasks.length :: s.ready }) rfl _ found
  | envelope e type =>
    cases type with
    | normalEnd | periodic => exact added (t := s.wake s.tasks.length) rfl _ found
    | crash =>
      exact added (t := ((s.markFinalized e).persistFinal e).1.wake _)
        (persistFinal_aside (s.markFinalized e) e).tasks _ found
  | _ => cases final

/-- A task that has to do with a final form did before, or the final form was handed over. -/
theorem ends_step (ends : (s.step m).Ends k j) :
    s.Ends k j ∨ (m.ends k = true ∧ j = s.tasks.length) := by
  obtain ⟨stage, e, found, final, keyed⟩ := ends
  cases stage_from found with
  | young young => cases young.final?.symm.trans final
  | near at_ near => exact .inl ⟨_, e, at_, near.final?.symm.trans final, keyed⟩
  | leads move at_ leads => exact .inl ⟨_, e, at_, leads.final? final, keyed⟩
  | new missing new =>
    have handed := newcomer_final? new final
    refine .inr ⟨?_, new_of_final handed missing found⟩
    simp [Move.ends, handed, keyed]
  | gets at_ gets =>
    rcases gets_final? gets with same | none_
    · exact .inl ⟨_, e, at_, same.symm.trans final, keyed⟩
    · cases none_.symm.trans final

theorem Initial.not_ends (initial : s.Initial) (none_ : ms.countP (Move.ends k) = 0) :
    ¬(s.run ms).Ends k j := by
  induction ms using List.reverseRecOn with
  | nil =>
    rintro ⟨stage, e, found, _⟩
    rw [run, List.foldl_nil, stage?, initial.tasks] at found
    cases found
  | append_singleton ms m ih =>
    rw [List.countP_append, List.countP_singleton, Nat.add_eq_zero_iff] at none_
    intro ends
    rw [run_concat] at ends
    rcases ends_step ends with before | ⟨handed, _⟩
    · exact ih none_.1 before
    · rw [handed] at none_
      cases none_.2

/-- If a final form is handed over once, then one task has to do with it. -/
theorem Initial.ends_alone (initial : s.Initial) (once : ms.countP (Move.ends k) ≤ 1)
    (first : (s.run ms).Ends k i) (second : (s.run ms).Ends k j) : i = j := by
  induction ms using List.reverseRecOn with
  | nil => exact absurd first (initial.not_ends rfl)
  | append_singleton ms m ih =>
    rw [List.countP_append, List.countP_singleton] at once
    rw [run_concat] at first second
    have fresh {l : Nat} (handed : m.ends k = true) : ¬(s.run ms).Ends k l := by
      rw [if_pos handed] at once
      exact initial.not_ends (by omega)
    rcases ends_step first with old | ⟨handed, rfl⟩ <;>
      rcases ends_step second with old' | ⟨handed', rfl⟩
    · exact ih (Nat.le_trans (Nat.le_add_right _ _) once) old old'
    · exact absurd old (fresh handed')
    · exact absurd old' (fresh handed)
    · rfl

/-! ## The task that sends it -/

/-- Who puts a final form in the queue, and who sends it. -/
theorem persisted?_cases {x : Pending × Bool} (final : s.persisted? m = some (e, x)) :
    (∃ j, m = .work j ∧ s.stage? j = some (.working (.persist e)) ∧
      (s.step m).stage? j = some (.worked (.persisted e x.1 x.2))) ∨
    (m = .envelope e .crash ∧
      (s.step m).stage? s.tasks.length = some (.spawned (.sendFinal e x.1 x.2))) := by
  unfold persisted? at final
  split at final
  case h_1 j =>
    split at final <;> cases final
    case h_1 at_ =>
      exact .inl ⟨j, rfl, at_, stage?_step_work at_⟩
  case h_2 =>
    cases final
    have size := congrArg List.length (persistFinal_aside (s.markFinalized e) e).tasks
    exact .inr ⟨rfl, (stage?_addTask (((s.markFinalized e).persistFinal e).1.wake _) _ _).trans
      (if_pos size.symm)⟩
  case h_3 => cases final

/-- Once the final form is put in the queue, there is nobody but the task that sends it. -/
theorem Initial.onlySends (initial : s.Initial)
    (once : (before ++ m :: after).countP (Move.ends k) ≤ 1) (keyed : e.key? = some k)
    (final : (s.run before).persisted? m = some (e, p, false)) :
    (∀ j stage, ((s.run before).step m).stage? j = some stage → stage.OnlySends k e p.id) ∧
      after.countP (Move.ends k) = 0 := by
  rw [List.countP_append, List.countP_cons] at once
  rcases persisted?_cases final with ⟨i, rfl, at_, turned⟩ | ⟨rfl, turned⟩
  -- the task that puts it in the queue was there before, so nothing is handed over any more
  · have mine : (s.run before).Ends k i := ⟨_, e, at_, rfl, keyed⟩
    have handed : before.countP (Move.ends k) ≠ 0 := fun none_ => initial.not_ends none_ mine
    refine ⟨fun j stage found f has keyed' => ?_, by omega⟩
    rcases ends_step ⟨stage, f, found, has, keyed'⟩ with old | ⟨handed, _⟩
    · obtain rfl := initial.ends_alone (by omega) mine old
      obtain rfl := Option.some.inj (turned.symm.trans found)
      exact ⟨rfl, rfl, rfl⟩
    · cases handed
  -- a crash is put in the queue as it is handed over
  · have handed : (Move.envelope e .crash).ends k = true := by
      simp [Move.ends, Move.final?, SnapshotType.isTerminal, keyed]
    rw [if_pos handed] at once
    refine ⟨fun j stage found f has keyed' => ?_, by omega⟩
    rcases ends_step ⟨stage, f, found, has, keyed'⟩ with old | ⟨_, rfl⟩
    · exact absurd old (initial.not_ends (by omega))
    · obtain rfl := Option.some.inj (turned.symm.trans found)
      exact ⟨p, rfl, rfl⟩

/-- It stays so until the end of the delivery is told. -/
theorem onlySends_step (tidy : s.queue.Tidy) (alone : m.ends k = false)
    (open_ : (s.step m).endings id = s.endings id)
    (sends : ∀ j stage, s.stage? j = some stage → stage.OnlySends k e id) :
    ∀ j stage, (s.step m).stage? j = some stage → stage.OnlySends k e id := by
  intro j stage found f has keyed
  cases stage_from found with
  | young young => cases young.final?.symm.trans has
  | near at_ near => exact near.sends (sends j _ at_ f (near.final?.symm.trans has) keyed)
  | new missing new => simp [Move.ends, newcomer_final? new has, keyed] at alone
  | gets at_ gets =>
    rcases gets_final? gets with same | none_
    · exact gets_sends gets (sends j _ at_ f (same.symm.trans has) keyed)
    · cases none_.symm.trans has
  | @leads old _ _ move at_ leads =>
    have tidy : (s.unplan old).queue.Tidy := (s.unplan_same old).2.1 ▸ tidy
    have mine := sends j _ at_ f (leads.final? has) keyed
    rcases leads.sends tidy mine with still | none_ | ⟨p, ending, purpose, rfl, rfl⟩
    · exact still
    · cases none_.symm.trans has
    -- it would tell the end of the delivery
    · have hand : s.hand? j = some (p, .removed ending) := by
        rw [hand?, view_of_stage? at_]
        rfl
      have told := endings_of_removed hand
      rw [← move, open_] at told
      exact absurd told (Nat.lt_irrefl _)

/-! ## Checkpoints that are late -/

/-- The task is about to write a checkpoint of the envelope with this key. -/
def Caches (s : Service) (k : Key) (j : Nat) : Prop :=
  ∃ e, s.stage? j = some (.working (.cache e)) ∧ e.key? = some k

/-- A checkpoint that is about to be written was so before, or the final form was not handed over
when it began. -/
theorem cache_from (found : (s.step m).stage? j = some (.working (.cache e))) :
    s.stage? j = some (.working (.cache e)) ∨
      (m = .advance j ∧ s.isFinalized e.id = false) := by
  cases stage_from found with
  | young young => cases young
  | near at_ near =>
    cases near
    exact .inl at_
  | new missing new => cases new
  | gets at_ gets =>
    cases gets
    exact .inl at_
  | leads move at_ leads =>
    cases leads with
    | stays => exact .inl at_
    | caches e type checkpoint running => exact .inr ⟨move, running⟩
    | triesFinal tries | triesEnqueued tries | triesPersisted tries => cases tries
    | replays _ replays => exact absurd rfl replays.not_caches
    | ends concludes | retries concludes | skips _ concludes | holds _ concludes
    | limited concludes => exact absurd rfl concludes.not_caches

/-- A checkpoint that is about to be written although the id is remembered was so before. -/
theorem Caches.of_step (remembers : m = .advance j → s.isFinalized k.id = true)
    (caches : (s.step m).Caches k j) : s.Caches k j := by
  obtain ⟨e, found, keyed⟩ := caches
  rcases cache_from found with before | ⟨move, running⟩
  · exact ⟨e, before, keyed⟩
  · rw [← Envelope.id_of_key? keyed, remembers move] at running
    cases running

theorem caches_of_sketched (sketch : s.sketched? m = some e) (keyed : e.key? = some k) :
    ∃ j, m = .work j ∧ s.Caches k j := by
  unfold sketched? at sketch
  split at sketch
  case h_1 j =>
    split at sketch <;> cases sketch
    case h_1 at_ => exact ⟨j, rfl, e, at_, keyed⟩
  case h_2 => cases sketch

theorem working_of_discarded (ended : s.discarded? m = some e) :
    ∃ j outcome, s.stage? j = some (.working (.discard e outcome)) := by
  unfold discarded? at ended
  split at ended
  case h_1 j =>
    split at ended <;> cases ended
    case h_1 outcome at_ => exact ⟨j, outcome, at_⟩
  case h_2 => cases ended

/-! ## The only copy -/

/-- A move leaves a snapshot alone that is not to be replaced or deleted. -/
theorem snapshot_step (has : s.snapshots.Has k b) (below : s.snapshots.BelowQuota)
    (remembers : s.isFinalized k.id = true) (persisted : ∀ x ∈ s.persisted? m, x.1.key? ≠ some k)
    (sketched : ∀ e ∈ s.sketched? m, e.key? ≠ some k)
    (discarded : ∀ e ∈ s.discarded? m, e.key? ≠ some k) :
    (s.step m).snapshots.Has k b := by
  have shelves := s.step_shelves m
  generalize (s.step m).snapshots = shelf at shelves
  cases shelves with
  | still => exact has
  | @withdraws e p l final keyed => exact has.delete fun same => persisted _ final (same ▸ keyed)
  | @replaces e p l final keyed =>
    exact has.putBytes (fun same => persisted _ final (same ▸ keyed)) below _
  | @sketches e l sketch keyed running =>
    exact has.putBytes (fun same => sketched e sketch (same ▸ keyed)) below _
  | @retracts e l sketch keyed done =>
    have other : l ≠ k := fun same => sketched e sketch (same ▸ keyed)
    exact (has.putBytes other below _).delete other
  | @discards e l ended keyed => exact has.delete fun same => discarded e ended (same ▸ keyed)
  | clears ls left =>
    refine has.deleteAll fun member => ?_
    rw [left k member] at remembers
    cases remembers

/-- The step of a run in which the final form of the envelope is not handed over and no end of the
delivery is told. The snapshots are below their quota, and the id is remembered. -/
structure Undecided (k : Key) (id : String) (s : Service) (m : Move) : Prop where
  tidy : s.queue.Tidy
  alone : m.ends k = false
  below : s.snapshots.BelowQuota
  remembers : s.isFinalized k.id = true
  open_ : (s.step m).endings id = s.endings id

theorem Reachable.undecided (reachable : s.Reachable) (alone : ms.countP (Move.ends k) = 0)
    (below : s.Always (fun s _ => s.snapshots.BelowQuota) ms)
    (remembers : s.Always (fun s _ => s.isFinalized k.id = true) ms)
    (open_ : (s.run ms).endings id = s.endings id) : s.Always (Undecided k id) ms := by
  induction ms generalizing s with
  | nil => trivial
  | cons m ms ih =>
    have first := endings_step s m id
    have rest := endings_run (s.step m) ms id
    have last : ((s.step m).run ms).endings id = s.endings id := open_
    rw [List.countP_cons, Nat.add_eq_zero_iff] at alone
    have now_ : m.ends k = false := by simpa using alone.2
    exact ⟨⟨reachable.inOrder.tidy, now_, below.1, remembers.1, by omega⟩,
      ih (.move reachable m) alone.1 below.2 remembers.2 (by omega)⟩

/-- Whoever has to do with the final form sends it, and no checkpoint but the late ones is about to
be written. -/
structure Guards (k : Key) (e : Envelope) (id : String) (late : Nat → Prop) (s : Service) :
    Prop where
  sends : ∀ j stage, s.stage? j = some stage → stage.OnlySends k e id
  caches : ∀ j, s.Caches k j → late j

theorem Guards.step (guards : Guards k e id late s) (now_ : Undecided k id s m) :
    Guards k e id late (s.step m) where
  sends := onlySends_step now_.tidy now_.alone now_.open_ guards.sends
  caches j caches := guards.caches j (Caches.of_step (fun _ => now_.remembers) caches)

theorem Guards.not_persisted (guards : Guards k e id late s) (now_ : Undecided k id s m) :
    ∀ x ∈ s.persisted? m, x.1.key? ≠ some k := by
  rintro ⟨f, x⟩ final keyed
  rcases persisted?_cases final with ⟨j, _, at_, _⟩ | ⟨rfl, _⟩
  · exact guards.sends j _ at_ f rfl keyed
  · have alone := now_.alone
    simp [Move.ends, Move.final?, SnapshotType.isTerminal, keyed] at alone

/-- The final form is kept while no late checkpoint is written. -/
theorem Guards.keeps (guards : Guards k e id late s) (now_ : Undecided k id s m)
    (has : s.snapshots.Has k b) (unwritten : ∀ j, late j → m ≠ .work j) :
    (s.step m).snapshots.Has k b := by
  refine snapshot_step has now_.below now_.remembers (guards.not_persisted now_) ?_ ?_
  · intro f sketch keyed
    obtain ⟨j, move, caches⟩ := caches_of_sketched sketch keyed
    exact unwritten j (guards.caches j caches) move
  · intro f ended keyed
    obtain ⟨j, outcome, at_⟩ := working_of_discarded ended
    exact guards.sends j _ at_ f rfl keyed

theorem Guards.keeps_run (guards : Guards k e id late s) (along : s.Always (Undecided k id) ms)
    (has : s.snapshots.Has k b) (unwritten : ∀ j, late j → .work j ∉ ms) :
    (s.run ms).snapshots.Has k b := by
  induction ms generalizing s with
  | nil => exact has
  | cons m ms ih =>
    have kept := guards.keeps along.1 has fun j is_late same =>
      unwritten j is_late (same ▸ List.mem_cons_self)
    exact ih (guards.step along.1) along.2 kept fun j is_late member =>
      unwritten j is_late (List.mem_cons_of_mem m member)

/-- Once the snapshot is gone, it does not come back. -/
theorem Guards.lacks_run (guards : Guards k e id late s) (along : s.Always (Undecided k id) ms)
    (takes : s.snapshots.Takes k) (lacks : s.snapshots.Lacks k) :
    (s.run ms).snapshots.Lacks k := by
  induction ms generalizing s with
  | nil => exact lacks
  | cons m ms ih =>
    have durable : s.PersistsDurably k m := fun x final keyed =>
      absurd keyed (guards.not_persisted along.1 x final)
    have lacks := lacks_step takes lacks durable fun _ _ _ => along.1.remembers
    exact ih (guards.step along.1) along.2 (takes_step takes m) lacks

/-- A checkpoint that is written although the id is remembered leaves nothing. -/
theorem lacks_of_late (takes : s.snapshots.Takes k) (remembers : s.isFinalized k.id = true)
    (caches : s.Caches k j) : (s.step (.work j)).snapshots.Lacks k := by
  obtain ⟨e, at_, keyed⟩ := caches
  have sketch : s.sketched? (.work j) = some e := by simp only [sketched?, at_]
  rw [Envelope.id_of_key? keyed] at remembers
  rw [sketched_snapshots sketch keyed, takes.putBytes_isOk, remembers]
  exact (takes.putBytes k _).delete_lacks

/-- A checkpoint stays about to be written until it is written. -/
theorem Caches.step (caches : s.Caches k j) (other : m ≠ .work j) : (s.step m).Caches k j := by
  obtain ⟨e, at_, keyed⟩ := caches
  obtain ⟨stage, found, near | ⟨_, _, leads⟩ | gets⟩ := stage_after m at_
  · cases near
    exact ⟨e, found, keyed⟩
  · cases leads
    exact ⟨e, found, keyed⟩
  · cases gets with
    | same => exact ⟨e, found, keyed⟩
    | works => exact absurd rfl other

/-- The snapshot is gone once a late checkpoint was written. -/
theorem Guards.lost (guards : Guards k e id late s) (along : s.Always (Undecided k id) ms)
    (takes : s.snapshots.Takes k) (caches : s.Caches k j) (written : .work j ∈ ms) :
    (s.run ms).snapshots.Lacks k := by
  induction ms generalizing s with
  | nil => cases written
  | cons m ms ih =>
    by_cases now_ : m = .work j
    case pos =>
      subst now_
      exact (guards.step along.1).lacks_run along.2 (takes_step takes _)
        (lacks_of_late takes along.1.remembers caches)
    case neg =>
      have later : .work j ∈ ms := (List.mem_cons.mp written).resolve_left (Ne.symm now_)
      exact ih (guards.step along.1) along.2 (takes_step takes m) (caches.step now_) later

/-- When a final form that the queue has not on disk is kept as the snapshot of its envelope, and
when it is lost.

Let the final form be handed over once, in any run in which any number of checkpoints of the
envelope are handed over, and let it be put in the queue but not on disk. The file can be written,
the snapshots are below their quota, the id is still remembered, and the end of the delivery was not
told yet. Then the snapshot is the final form exactly if no checkpoint was written since that had
begun before the final form was put in the queue. If one was, there is no snapshot at all. -/
theorem final_form_kept_iff (initial : s.Initial)
    (once : (before ++ m :: after).countP (Move.ends k) ≤ 1) (keyed : e.key? = some k)
    (final : (s.run before).persisted? m = some (e, p, false))
    (takes : (s.run before).snapshots.Takes k)
    (below : (s.run before).Always (fun s _ => s.snapshots.BelowQuota) (m :: after))
    (remembers : (s.run (before ++ [m])).Always (fun s _ => s.isFinalized k.id = true) after)
    (open_ : (s.run (before ++ m :: after)).endings p.id = (s.run before).endings p.id) :
    let shelf := (s.run (before ++ m :: after)).snapshots
    (shelf.Has k e.encode ↔ ∀ j, (s.run before).Caches k j → .work j ∉ after) ∧
      ((∃ j, (s.run before).Caches k j ∧ .work j ∈ after) → shelf.Lacks k) := by
  obtain ⟨sends, alone⟩ := initial.onlySends once keyed final
  have stored : ((s.run before).step m).snapshots.Has k e.encode := by
    rw [persisted_snapshots final keyed]
    exact Store.putBytes_has (takes.putBytes_isOk _)
      (Nat.lt_of_le_of_lt (Store.ahead_le_stored _ k) below.1)
  -- putting the final form in the queue neither begins nor writes a checkpoint
  have own {j : Nat} (caches : (s.run before).Caches k j) : m ≠ .work j := by
    rintro rfl
    obtain ⟨f, at_, _⟩ := caches
    simp [persisted?, at_] at final
  have still : ∀ j, m ≠ .advance j := by
    rintro j rfl
    cases final
  have guards : Guards k e p.id ((s.run before).Caches k) ((s.run before).step m) :=
    ⟨sends, fun j => Caches.of_step fun move => absurd move (still j)⟩
  have split : s.run (before ++ m :: after) = ((s.run before).step m).run after :=
    run_append s before (m :: after)
  have first := endings_step (s.run before) m p.id
  have rest := endings_run ((s.run before).step m) after p.id
  rw [run_concat] at remembers
  rw [split] at open_ ⊢
  have along := ((initial.reachable.run before).move m).undecided alone below.2 remembers
    (by omega : _ = ((s.run before).step m).endings p.id)
  have lost : (∃ j, (s.run before).Caches k j ∧ .work j ∈ after) →
      (((s.run before).step m).run after).snapshots.Lacks k := by
    rintro ⟨j, caches, written⟩
    exact guards.lost along (takes_step takes m) (caches.step (own caches)) written
  refine ⟨⟨fun has j caches written => ?_, guards.keeps_run along stored⟩, lost⟩
  exact has.not_lacks (lost ⟨j, caches, written⟩)

/-- A service whose queue cannot write files. -/
def undurable : Service := start .default countedIds 0 0 ⟨.blocked, 100⟩ ⟨.absent, 100⟩

/-- A checkpoint is about to be written, and so is the final form. -/
def halfway : List Move := belated.take 5

/-- Another checkpoint is asked for, and old snapshots are looked for. -/
def onward : List Move :=
  [.call (.deliver runningLog .periodic), .advance 2, .call .resurrect, .advance 3, .work 3,
    .advance 3, .advance 1]

/-- The final form is kept while these go on, until the first checkpoint is written. -/
theorem final_form_kept_iff_of_onward :
    undurable.Initial ∧
      (undurable.run (halfway ++ .work 1 :: onward)).snapshots.Has logKey finalLog.encode ∧
      (undurable.run (halfway ++ .work 1 :: (onward ++ [.work 0]))).snapshots.Lacks logKey := by
  have initial : undurable.Initial := .start _ _ _ _ _ _
  have final : (undurable.run halfway).persisted? (.work 1) =
      some (finalLog, ⟨"d", .logs, [3], 0, 0, 0, none⟩, false) := by decide +kernel
  have takes : (undurable.run halfway).snapshots.Takes logKey :=
    ⟨by decide +kernel, by decide +kernel, by decide +kernel⟩
  have below : (undurable.run halfway).Always (fun s _ => s.snapshots.BelowQuota)
      (.work 1 :: onward) := by decide +kernel
  have kept := final_form_kept_iff initial (by decide +kernel) rfl final takes below
    (by decide +kernel) (by decide +kernel)
  have below' : (undurable.run halfway).Always (fun s _ => s.snapshots.BelowQuota)
      (.work 1 :: (onward ++ [.work 0])) := by decide +kernel
  have lost := final_form_kept_iff initial (by decide +kernel) rfl final takes below'
    (by decide +kernel) (by decide +kernel)
  refine ⟨initial, kept.1.mpr ?_, lost.2 ⟨0, ⟨runningLog, by decide +kernel, by decide⟩, by simp⟩⟩
  rintro j ⟨e, at_, _⟩ member
  obtain rfl : j = 3 := by simpa [onward] using member
  have missing : (undurable.run halfway).stage? 3 = none := by decide +kernel
  cases missing.symm.trans at_

/-- The final form is handed over once and is the snapshot of its envelope, in files that can be
written, below the quota and with the id remembered; the checkpoint that is written then leaves
nothing, although no end of the delivery was told. -/
theorem final_form_lost :
    let before := halfway ++ [.work 1]
    let lost := undurable.run (before ++ [.work 0])
    undurable.Initial ∧ (before ++ [.work 0]).countP (Move.ends logKey) = 1 ∧
      (undurable.run halfway).persisted? (.work 1) =
        some (finalLog, ⟨"d", .logs, [3], 0, 0, 0, none⟩, false) ∧
      (undurable.run before).snapshots.Has logKey finalLog.encode ∧
      (undurable.run before).snapshots.Takes logKey ∧
      (undurable.run before).snapshots.BelowQuota ∧
      (undurable.run before).isFinalized "log" = true ∧ lost.endings "d" = 0 ∧
      ¬lost.snapshots.Has logKey finalLog.encode ∧ lost.snapshots.stored.1 = [] :=
  ⟨.start _ _ _ _ _ _, by decide +kernel, by decide +kernel, by decide +kernel,
    ⟨by decide +kernel, by decide +kernel, by decide +kernel⟩, by decide +kernel, by decide +kernel,
    by decide +kernel, by decide +kernel, by decide +kernel⟩

end Service

end Outbox
