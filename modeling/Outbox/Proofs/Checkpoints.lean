import Outbox.Proofs.Snapshots

/-! # Checkpoints and the final form

A checkpoint looks whether the final form of its envelope was handed over, and writes later. It may
write before the final form is put in the queue, or after. In the first case the snapshot is deleted
when the queue has the final form on disk, in the second the checkpoint takes it back itself. So
none is left in the end, in whatever order these tasks go on.
-/

namespace Outbox

open Storage (Key Store)

/-- The task will put the final form of the envelope in the queue. -/
def Stage.Owes (e : Envelope) (stage : Stage) : Prop :=
  (∃ type, type.isTerminal = true ∧ stage.job? = some (.deliver e type)) ∨
    stage = .working (.persist e)

/-- The envelope whose final form a move hands over. -/
def Move.final? : Move → Option Envelope
  | call (.deliver e type) | envelope e type => if type.isTerminal then some e else none
  | _ => none

theorem Leads.owes {s : Service} {old new : Stage} {held : List (Pending × QueueReason)}
    {e : Envelope} (leads : Leads s old held new) (owes : old.Owes e) : new.Owes e := by
  rcases owes with ⟨type, terminal, job⟩ | rfl
  · cases leads with
    | stays | asks | sits => exact .inl ⟨type, terminal, job⟩
    | persists f other _ =>
      cases job
      exact .inr rfl
    | caches f other checkpoint | ignores f other checkpoint =>
      cases job
      cases terminal.symm.trans checkpoint
    | replays due =>
      rcases due with rfl | ⟨time, rfl⟩ <;> cases job
    | _ => cases job
  · cases leads
    exact .inr rfl

theorem Stage.Near.owes {a b : Stage} {e : Envelope} (near : a.Near b) (owes : a.Owes e) :
    b.Owes e := by
  rcases owes with ⟨type, terminal, job⟩ | rfl
  · exact .inl ⟨type, terminal, near.job?.trans job⟩
  · cases near
    exact .inr rfl

namespace Service

variable {s : Service} {m : Move} {ms : List Move} {k : Key} {e : Envelope} {i : Nat}

/-! ## What moves do to one snapshot -/

/-- A final form of the envelope with this key is put in the queue. -/
def Persists (k : Key) (s : Service) (m : Move) : Prop :=
  ∃ x ∈ s.persisted? m, x.1.key? = some k

/-- If a final form of the envelope with this key is put in the queue, then it is on disk. -/
def PersistsDurably (k : Key) (s : Service) (m : Move) : Prop :=
  ∀ x ∈ s.persisted? m, x.1.key? = some k → x.2.2 = true

/-- If a checkpoint of the envelope with this key is written, then it is known that the final form
was handed over. -/
def SketchesMarked (k : Key) (s : Service) (m : Move) : Prop :=
  ∀ e ∈ s.sketched? m, e.key? = some k → s.isFinalized k.id = true

instance (k : Key) (s : Service) (m : Move) : Decidable (s.Persists k m) :=
  inferInstanceAs (Decidable (∃ _ ∈ _, _))

instance (k : Key) (s : Service) (m : Move) : Decidable (s.PersistsDurably k m) :=
  inferInstanceAs (Decidable (∀ _ ∈ _, _))

instance (k : Key) (s : Service) (m : Move) : Decidable (s.SketchesMarked k m) :=
  inferInstanceAs (Decidable (∀ _ ∈ _, _))

theorem takes_step (takes : s.snapshots.Takes k) (m : Move) :
    (s.step m).snapshots.Takes k := by
  have shelves := s.step_shelves m
  generalize (s.step m).snapshots = shelf at shelves
  cases shelves with
  | still => exact takes
  | withdraws final keyed => exact takes.delete _
  | replaces final keyed => exact takes.putBytes _ _
  | sketches sketch keyed running => exact takes.putBytes _ _
  | retracts sketch keyed done => exact (takes.putBytes _ _).delete _
  | discards ended keyed => exact takes.delete _
  | clears ks left => exact takes.deleteAll ks

/-- There is still no snapshot after a move, if what it puts in the queue is on disk and what it
writes is taken back. -/
theorem lacks_step (takes : s.snapshots.Takes k) (lacks : s.snapshots.Lacks k)
    (durable : s.PersistsDurably k m) (marked : s.SketchesMarked k m) :
    (s.step m).snapshots.Lacks k := by
  have shelves := s.step_shelves m
  generalize (s.step m).snapshots = shelf at shelves
  cases shelves with
  | still => exact lacks
  | withdraws final keyed | discards ended keyed => exact Store.delete_lacks_of_lacks _ lacks
  | @replaces e p l final keyed =>
    by_cases own : l = k
    · subst own
      cases durable _ final keyed
    · exact lacks.putBytes own _
  | @sketches e l sketch keyed running =>
    by_cases own : l = k
    · subst own
      have done := marked e sketch keyed
      rw [Envelope.id_of_key? keyed, running (takes.putBytes_isOk _)] at done
      cases done
    · exact lacks.putBytes own _
  | @retracts e l sketch keyed done =>
    by_cases own : l = k
    · subst own
      exact (takes.putBytes _ _).delete_lacks
    · exact Store.delete_lacks_of_lacks _ (lacks.putBytes own _)
  | clears ks left => exact Store.deleteAll_lacks_of_lacks ks lacks

/-- The snapshot is deleted when the queue has the final form on disk. -/
theorem persists_lacks (takes : s.snapshots.Takes k) (persists : s.Persists k m)
    (durable : s.PersistsDurably k m) : (s.step m).snapshots.Lacks k := by
  obtain ⟨x, final, keyed⟩ := persists
  rw [persisted_snapshots final keyed, durable x final keyed]
  exact takes.delete_lacks

/-! ## Runs -/

/-- Each move of the run has this property where it comes. -/
def Always (P : Service → Move → Prop) (s : Service) : List Move → Prop
  | [] => True
  | m :: ms => P s m ∧ (s.step m).Always P ms

/-- From the first time that a final form of the envelope is put in the queue, each checkpoint of it
that is written finds that the id is remembered. -/
def Remembers (k : Key) (s : Service) : List Move → Prop
  | [] => True
  | m :: ms =>
    if s.Persists k m then (s.step m).Always (SketchesMarked k) ms else (s.step m).Remembers k ms

/-- At some point of the run a final form of the envelope is put in the queue. -/
def PersistsIn (k : Key) (s : Service) (ms : List Move) : Prop :=
  ∃ before m after, ms = before ++ m :: after ∧ (s.run before).Persists k m

instance decidableAlways (P : Service → Move → Prop) [∀ s m, Decidable (P s m)] (s : Service) :
    (ms : List Move) → Decidable (s.Always P ms)
  | [] => inferInstanceAs (Decidable True)
  | m :: ms => @instDecidableAnd _ _ _ (decidableAlways P (s.step m) ms)

instance decidableRemembers (k : Key) (s : Service) :
    (ms : List Move) → Decidable (s.Remembers k ms)
  | [] => inferInstanceAs (Decidable True)
  | m :: ms =>
    have := decidableRemembers k (s.step m) ms
    inferInstanceAs (Decidable (if s.Persists k m then (s.step m).Always (SketchesMarked k) ms
      else (s.step m).Remembers k ms))

theorem lacks_run (takes : s.snapshots.Takes k) (lacks : s.snapshots.Lacks k)
    (durable : s.Always (PersistsDurably k) ms) (marked : s.Always (SketchesMarked k) ms) :
    (s.run ms).snapshots.Takes k ∧ (s.run ms).snapshots.Lacks k := by
  induction ms generalizing s with
  | nil => exact ⟨takes, lacks⟩
  | cons m ms ih =>
    exact ih (takes_step takes m) (lacks_step takes lacks durable.1 marked.1) durable.2 marked.2

/-- No snapshot is left once a final form was put in the queue. -/
theorem persistsIn_lacks (takes : s.snapshots.Takes k)
    (durable : s.Always (PersistsDurably k) ms) (remembers : s.Remembers k ms)
    (persists : s.PersistsIn k ms) :
    (s.run ms).snapshots.Takes k ∧ (s.run ms).snapshots.Lacks k := by
  induction ms generalizing s with
  | nil =>
    obtain ⟨before, m, after, shape, _⟩ := persists
    cases before <;> cases shape
  | cons m ms ih =>
    unfold Remembers at remembers
    split at remembers
    case isTrue now =>
      exact lacks_run (s := s.step m) (takes_step takes m) (persists_lacks takes now durable.1)
        durable.2 remembers
    case isFalse later =>
      refine ih (s := s.step m) (takes_step takes m) durable.2 remembers ?_
      obtain ⟨before, n, after, shape, persists⟩ := persists
      cases before with
      | nil =>
        cases shape
        exact absurd persists later
      | cons first before =>
        cases shape
        exact ⟨before, n, after, rfl, persists⟩

/-! ## The task that persists -/

/-- A task that will persist a final form still will, or a move does it for it. -/
theorem owes_step {stage : Stage} (at_ : s.stage? i = some stage) (owes : stage.Owes e) (m : Move) :
    (∃ x ∈ s.persisted? m, x.1 = e) ∨
      ∃ stage', (s.step m).stage? i = some stage' ∧ stage'.Owes e := by
  obtain ⟨stage', at_', near | ⟨_, held, leads⟩ | gets⟩ := stage_after m at_
  · exact .inr ⟨stage', at_', near.owes owes⟩
  · exact .inr ⟨stage', at_', leads.owes owes⟩
  · cases gets with
    | same => exact .inr ⟨stage, at_', owes⟩
    | fires time job => exact .inr ⟨_, at_', owes.imp_right fun working => by cases working⟩
    | works w =>
      obtain ⟨_, _, none_⟩ | working := owes
      · cases none_
      · cases working
        exact .inl ⟨(e, (s.persistFinal e).2), by simp only [persisted?, at_]; rfl, rfl⟩
    | answers reply p purpose | hears reply f =>
      obtain ⟨_, _, none_⟩ | working := owes
      · cases none_
      · cases working

/-- A task that had to persist a final form and has ended did so. -/
theorem persistsIn_of_finished {stage : Stage} {result : Result} (at_ : s.stage? i = some stage)
    (owes : stage.Owes e) (keyed : e.key? = some k)
    (ended : (s.run ms).stage? i = some (.finished result)) : s.PersistsIn k ms := by
  induction ms generalizing s stage with
  | nil =>
    obtain rfl := Option.some.inj (at_.symm.trans ended)
    obtain ⟨_, _, none_⟩ | working := owes
    · cases none_
    · cases working
  | cons m ms ih =>
    rcases owes_step at_ owes m with ⟨x, final, rfl⟩ | ⟨stage', at_', owes'⟩
    · exact ⟨[], m, ms, rfl, x, final, keyed⟩
    · obtain ⟨before, n, after, rfl, persists⟩ := ih at_' owes' ended
      exact ⟨m :: before, n, after, rfl, persists⟩

/-- A final form that is handed over is put in the queue before its task has ended. -/
theorem persistsIn_of_final {result : Result} (final : m.final? = some e) (keyed : e.key? = some k)
    (ended : (s.run (m :: ms)).stage? s.tasks.length = some (.finished result)) :
    s.PersistsIn k (m :: ms) := by
  have later {stage : Stage} {type : SnapshotType} (terminal : type.isTerminal = true)
      (at_ : (s.step m).stage? s.tasks.length = some stage)
      (job : stage.job? = some (.deliver e type)) : s.PersistsIn k (m :: ms) := by
    obtain ⟨before, n, after, rfl, persists⟩ :=
      persistsIn_of_finished at_ (.inl ⟨type, terminal, job⟩) keyed ended
    exact ⟨m :: before, n, after, rfl, persists⟩
  unfold Move.final? at final
  split at final
  case h_1 f type =>
    split at final <;> cases final
    case isTrue terminal =>
      have added := (stage?_addTask { s with ready := s.tasks.length :: s.ready }
        ⟨false, none, .starting (.deliver e type)⟩ s.tasks.length).trans (if_pos rfl)
      exact later terminal added rfl
  case h_2 f type =>
    split at final <;> cases final
    case isTrue terminal =>
      cases type with
      | periodic => cases terminal
      | crash => exact ⟨[], _, ms, rfl, (e, _), rfl, keyed⟩
      | normalEnd =>
        have added := (stage?_addTask (s.wake s.tasks.length)
          ⟨true, none, .spawned (.deliver e .normalEnd)⟩ s.tasks.length).trans (if_pos rfl)
        exact later terminal added rfl
  case h_3 => cases final

/-! ## The next start -/

/-- Looking for a snapshot that is not there makes no difference. -/
theorem requeue_filter (takes : s.snapshots.Takes k) (lacks : s.snapshots.Lacks k)
    (keys : List Key) : s.requeue keys = s.requeue (keys.filter (· ≠ k)) := by
  induction keys generalizing s with
  | nil => rfl
  | cons key keys ih =>
    by_cases own : key = k
    · subst own
      rw [List.filter_cons_of_neg (by simp), ← ih takes lacks]
      simp only [requeue, takes.loadBytes lacks]
      split <;> rfl
    · have same {t : Service} (shelf : t.snapshots = s.snapshots) :
          t.requeue keys = t.requeue (keys.filter (· ≠ k)) :=
        ih (shelf ▸ takes) (shelf ▸ lacks)
      have gone {t : Service} (shelf : t.snapshots = (s.snapshots.delete key).1) :
          t.requeue keys = t.requeue (keys.filter (· ≠ k)) :=
        ih (shelf ▸ takes.delete key) (shelf ▸ Store.delete_lacks_of_lacks key lacks)
      rw [List.filter_cons_of_pos (by simp [own])]
      simp only [requeue]
      split
      · exact same rfl
      · split
        · exact same rfl
        · exact gone rfl
        · split
          · exact gone rfl
          · split
            · exact congrArg (fun r : Service × Nat => (r.1, r.2 + 1)) (gone rfl)
            · exact congrArg (fun r : Service × Nat => (r.1, r.2 + 1)) (same rfl)

/-- No snapshot outlives a final form that the queue has on disk.

In any run in which the final form of an envelope is handed over: once its task has ended there is
no snapshot of the envelope, however the task went on among the others, with any number of
checkpoints of the same envelope among them. For that the files can be written, whatever final form
of the envelope is put in the queue is on disk, and the id is still remembered whenever a
checkpoint is written after that. So the next process to start finds nothing under that key. -/
theorem no_snapshot_outlives {before after : List Move} {result : Result}
    (takes : s.snapshots.Takes k) (keyed : e.key? = some k) (final : m.final? = some e)
    (durable : s.Always (PersistsDurably k) (before ++ m :: after))
    (remembers : s.Remembers k (before ++ m :: after))
    (ended : (s.run (before ++ m :: after)).stage? (s.run before).tasks.length =
      some (.finished result)) :
    let shelf := (s.run (before ++ m :: after)).snapshots
    shelf.Lacks k ∧ ∀ next : Service, next.snapshots = shelf →
      next.resurrect =
        (next.report shelf.stored.2).requeue (shelf.stored.1.filter (· ≠ k)) := by
  intro shelf
  have persists : s.PersistsIn k (before ++ m :: after) := by
    rw [run_append] at ended
    obtain ⟨first, n, rest, shape, persists⟩ := persistsIn_of_final final keyed ended
    refine ⟨before ++ first, n, rest, by rw [shape, List.append_assoc], ?_⟩
    rw [run_append]
    exact persists
  obtain ⟨takes', lacks⟩ := persistsIn_lacks takes durable remembers persists
  refine ⟨lacks, fun next same => ?_⟩
  have shelf' : (next.report shelf.stored.2).snapshots = shelf := same
  rw [resurrect, same]
  exact requeue_filter (shelf'.symm ▸ takes') (shelf'.symm ▸ lacks) _

/-- The log before it has ended. -/
def runningLog : Envelope := ⟨"log", .log, 5, none, .foreground, [2]⟩

/-- A checkpoint is asked for, and before it is written the final form is put in the queue. -/
def belated : List Move :=
  [.network .notReachable, .call (.deliver runningLog .periodic), .advance 0,
    .call (.deliver finalLog .normalEnd), .advance 1, .work 1, .work 0, .advance 0, .advance 1]

/-- The checkpoint is taken back. -/
theorem no_snapshot_outlives_of_belated :
    let s := start .default countedIds 0 0 ⟨.absent, 100⟩ ⟨.absent, 100⟩
    s.Always (PersistsDurably logKey) belated ∧ s.Remembers logKey belated ∧
      (s.run (belated.take 7)).snapshots.place ≠ .absent ∧
      (s.run belated).snapshots.Lacks logKey := by
  intro s
  have shape : belated = belated.take 3 ++ .call (.deliver finalLog .normalEnd) ::
      belated.drop 4 := rfl
  have takes : s.snapshots.Takes logKey := ⟨by decide +kernel, nofun, nofun⟩
  have durable : s.Always (PersistsDurably logKey) belated := by decide +kernel
  have remembers : s.Remembers logKey belated := by decide +kernel
  have ended : (s.run belated).stage? (s.run (belated.take 3)).tasks.length =
      some (.finished (.handled (some (.queued .offline)))) := by decide +kernel
  refine ⟨durable, remembers, by decide +kernel, ?_⟩
  rw [shape] at durable remembers
  exact (no_snapshot_outlives takes rfl rfl durable remembers ended).1

end Service

end Outbox
