import Outbox.Proofs.Arrivals
import Outbox.Proofs.StoreEntries
import Outbox.Proofs.Turns

/-! # What becomes of the snapshots

Only dealing with files touches the snapshots, and a crash that is handed over. A checkpoint is
written under the key of its envelope, and taken back if the final form was handed over meanwhile.
The final form deletes what is there or takes its place. Old snapshots that are looked for are at
most deleted.
-/

namespace Outbox

open Storage (Key Store Place)

/-- The key of the snapshots of an envelope, unless its id cannot stand in a file name. -/
def Envelope.key? (e : Envelope) : Option Key := (Key.make e.start e.kind e.id).toOption

theorem Envelope.key?_eq_some {e : Envelope} {k : Key} (keyed : e.key? = some k) :
    Key.make e.start e.kind e.id = .ok k := by
  unfold key? at keyed
  cases made : Key.make e.start e.kind e.id with
  | ok key =>
    rw [made] at keyed
    cases keyed
    rfl
  | error err =>
    rw [made] at keyed
    cases keyed

theorem Envelope.id_of_key? {e : Envelope} {k : Key} (keyed : e.key? = some k) : k.id = e.id := by
  have made := key?_eq_some keyed
  unfold Key.make at made
  split at made <;> cases made
  rfl

namespace Service

variable {s t : Service} {m : Move} {k : Key} {e : Envelope}

/-! ## What a move does -/

/-- The final form that a move puts in the queue: the delivery that is made of it, and whether it is
on disk. -/
def persisted? (s : Service) : Move → Option (Envelope × Pending × Bool)
  | .work id =>
    match s.stage? id with
    | some (.working (.persist e)) => some (e, (s.persistFinal e).2)
    | _ => none
  | .envelope e .crash => some (e, ((s.markFinalized e).persistFinal e).2)
  | _ => none

/-- The checkpoint that a move writes. -/
def sketched? (s : Service) : Move → Option Envelope
  | .work id =>
    match s.stage? id with
    | some (.working (.cache e)) => some e
    | _ => none
  | _ => none

/-- The envelope whose snapshot a move deletes, because the delivery of its final form has ended. -/
def discarded? (s : Service) : Move → Option Envelope
  | .work id =>
    match s.stage? id with
    | some (.working (.discard e _)) => some e
    | _ => none
  | _ => none

/-- All that a move can do to the store of snapshots. -/
inductive Shelves (s : Service) (m : Move) : Store → Prop where
  | still : Shelves s m s.snapshots
  | withdraws {e : Envelope} {p : Pending} {k : Key} (final : s.persisted? m = some (e, p, true))
      (keyed : e.key? = some k) : Shelves s m (s.snapshots.delete k).1
  | replaces {e : Envelope} {p : Pending} {k : Key} (final : s.persisted? m = some (e, p, false))
      (keyed : e.key? = some k) : Shelves s m (s.snapshots.putBytes k e.encode).1
  | sketches {e : Envelope} {k : Key} (sketch : s.sketched? m = some e) (keyed : e.key? = some k)
      (running : (s.snapshots.putBytes k e.encode).2.2.isOk = true → s.isFinalized e.id = false) :
      Shelves s m (s.snapshots.putBytes k e.encode).1
  | retracts {e : Envelope} {k : Key} (sketch : s.sketched? m = some e) (keyed : e.key? = some k)
      (done : s.isFinalized e.id = true) :
      Shelves s m ((s.snapshots.putBytes k e.encode).1.delete k).1
  | discards {e : Envelope} {k : Key} (ended : s.discarded? m = some e) (keyed : e.key? = some k) :
      Shelves s m (s.snapshots.delete k).1
  | clears (ks : List Key) (left : ∀ l ∈ ks, s.isFinalized l.id = false) :
      Shelves s m (s.snapshots.deleteAll ks).1

/-- Old snapshots that are looked for are at most deleted, and not those of an envelope whose final
form was handed over. -/
theorem requeue_snapshots (s : Service) (keys : List Key) :
    ∃ ks : List Key, (s.requeue keys).1.snapshots = (s.snapshots.deleteAll ks).1 ∧
      ∀ l ∈ ks, s.isFinalized l.id = false := by
  induction keys generalizing s with
  | nil => exact ⟨[], rfl, by simp⟩
  | cons key keys ih =>
    have dropped {t : Service} (deleted : t.snapshots = (s.snapshots.delete key).1)
        (same : t.finalized = s.finalized) (left : s.isFinalized key.id = false) :
        ∃ ks : List Key, (t.requeue keys).1.snapshots = (s.snapshots.deleteAll ks).1 ∧
          ∀ l ∈ ks, s.isFinalized l.id = false := by
      obtain ⟨ks, shelf, others⟩ := ih t
      refine ⟨key :: ks, by rw [shelf, deleted]; rfl, fun l member => ?_⟩
      rcases List.mem_cons.mp member with rfl | later
      · exact left
      · exact (congrArg (·.any fun f => f.1 == l.id) same).symm.trans (others l later)
    simp only [requeue]
    split
    case isTrue => exact ih s
    case isFalse finalized =>
      have left := Bool.eq_false_iff.mpr finalized
      split
      · exact ih _
      · exact dropped rfl rfl left
      · split
        · exact dropped rfl rfl left
        · split
          · exact dropped rfl rfl left
          · exact ih _

theorem snapshotKey?_of_none (unkeyed : e.key? = none) :
    (s.snapshotKey? e).2 = none ∧ (s.snapshotKey? e).1.snapshots = s.snapshots := by
  unfold Envelope.key? at unkeyed
  unfold snapshotKey?
  cases made : Key.make e.start e.kind e.id with
  | ok key =>
    rw [made] at unkeyed
    cases unkeyed
  | error err => exact ⟨rfl, rfl⟩

theorem deleteSnapshot_of_none (unkeyed : e.key? = none) :
    (s.deleteSnapshot e).snapshots = s.snapshots := by
  obtain ⟨none_, same⟩ := snapshotKey?_of_none (s := s) unkeyed
  unfold deleteSnapshot
  generalize s.snapshotKey? e = keyed at none_ same
  obtain ⟨t, key⟩ := keyed
  cases none_
  exact same

theorem storeSnapshot_of_none (unkeyed : e.key? = none) :
    (s.storeSnapshot e).1.snapshots = s.snapshots ∧ (s.storeSnapshot e).2 = false := by
  obtain ⟨none_, same⟩ := snapshotKey?_of_none (s := s) unkeyed
  unfold storeSnapshot
  generalize s.snapshotKey? e = keyed at none_ same
  obtain ⟨t, key⟩ := keyed
  cases none_
  exact ⟨same, rfl⟩

theorem deleteSnapshot_of_some (keyed : e.key? = some k) :
    (s.deleteSnapshot e).snapshots = (s.snapshots.delete k).1 :=
  (deleteSnapshot_files (Envelope.key?_eq_some keyed)).1

theorem storeSnapshot_of_some (keyed : e.key? = some k) :
    (s.storeSnapshot e).1.snapshots = (s.snapshots.putBytes k e.encode).1 ∧
      (s.storeSnapshot e).1.finalized = s.finalized ∧
      (s.storeSnapshot e).2 = (s.snapshots.putBytes k e.encode).2.2.isOk := by
  rw [storeSnapshot, snapshotKey?_of_make (Envelope.key?_eq_some keyed)]
  exact ⟨rfl, rfl, rfl⟩

theorem persistFinal_of_none (unkeyed : e.key? = none) :
    (s.persistFinal e).1.snapshots = s.snapshots := by
  cases durable : (s.enqueue e.endpoint e.body).2.2 with
  | true =>
    rw [persistFinal_of_durable durable]
    exact deleteSnapshot_of_none unkeyed
  | false =>
    rw [persistFinal_of_not_durable durable]
    exact (storeSnapshot_of_none unkeyed).1

/-- Persisting deletes the snapshot if the queue has the final form on disk, and replaces it
otherwise. -/
theorem persistFinal_of_some (keyed : e.key? = some k) :
    (s.persistFinal e).1.snapshots =
      if (s.persistFinal e).2.2 then (s.snapshots.delete k).1
      else (s.snapshots.putBytes k e.encode).1 := by
  cases durable : (s.enqueue e.endpoint e.body).2.2 with
  | true =>
    rw [persistFinal_of_durable durable]
    exact deleteSnapshot_of_some keyed
  | false =>
    rw [persistFinal_of_not_durable durable]
    exact (storeSnapshot_of_some keyed).1

theorem writeSnapshot_of_none (unkeyed : e.key? = none) :
    (s.writeSnapshot e).snapshots = s.snapshots := by
  obtain ⟨same, failed⟩ := storeSnapshot_of_none (s := s) unkeyed
  unfold writeSnapshot
  generalize s.storeSnapshot e = stored at same failed
  obtain ⟨t, done⟩ := stored
  cases failed
  exact same

/-- A checkpoint is taken back at once if the final form was handed over meanwhile. -/
theorem writeSnapshot_of_some (keyed : e.key? = some k) :
    (s.writeSnapshot e).snapshots =
      if (s.snapshots.putBytes k e.encode).2.2.isOk && s.isFinalized e.id then
        ((s.snapshots.putBytes k e.encode).1.delete k).1
      else (s.snapshots.putBytes k e.encode).1 := by
  obtain ⟨put, finalized, done⟩ := storeSnapshot_of_some (s := s) keyed
  unfold writeSnapshot
  generalize s.storeSnapshot e = stored at put finalized done
  obtain ⟨t, worked⟩ := stored
  have put : t.snapshots = (s.snapshots.putBytes k e.encode).1 := put
  have remembers : t.isFinalized e.id = s.isFinalized e.id :=
    congrArg (·.any fun f => f.1 == e.id) finalized
  rw [← show worked = _ from done, ← remembers]
  cases worked with
  | false => exact put
  | true =>
    dsimp only
    cases t.isFinalized e.id with
    | true =>
      simp only [if_true, Bool.and_self]
      rw [deleteSnapshot_of_some keyed, put]
    | false => exact put

/-- What becomes of the store of snapshots when a move puts a final form in the queue. -/
theorem persisted_snapshots {x : Envelope × Pending × Bool} (final : s.persisted? m = some x)
    (keyed : x.1.key? = some k) : (s.step m).snapshots =
      if x.2.2 then (s.snapshots.delete k).1 else (s.snapshots.putBytes k x.1.encode).1 := by
  unfold persisted? at final
  split at final
  case h_1 id =>
    split at final <;> cases final
    case h_1 e at_ =>
      simp only [step, work, at_]
      exact persistFinal_of_some keyed
  case h_2 e =>
    cases final
    exact persistFinal_of_some (s := s.markFinalized e) keyed
  case h_3 => cases final

/-- What becomes of it when a move writes a checkpoint. -/
theorem sketched_snapshots (sketch : s.sketched? m = some e) (keyed : e.key? = some k) :
    (s.step m).snapshots =
      if (s.snapshots.putBytes k e.encode).2.2.isOk && s.isFinalized e.id then
        ((s.snapshots.putBytes k e.encode).1.delete k).1
      else (s.snapshots.putBytes k e.encode).1 := by
  unfold sketched? at sketch
  split at sketch
  case h_1 id =>
    split at sketch <;> cases sketch
    case h_1 at_ =>
      simp only [step, work, at_]
      exact writeSnapshot_of_some keyed
  case h_2 => cases sketch

theorem persisted_shelves {x : Envelope × Pending × Bool} (final : s.persisted? m = some x)
    (unkeyed : x.1.key? = none → t.snapshots = s.snapshots)
    (keyed : ∀ {k}, x.1.key? = some k → t.snapshots =
      if x.2.2 then (s.snapshots.delete k).1 else (s.snapshots.putBytes k x.1.encode).1) :
    Shelves s m t.snapshots := by
  obtain ⟨e, p, durable⟩ := x
  cases key : e.key? with
  | none => exact unkeyed key ▸ .still
  | some k =>
    rw [keyed key]
    cases durable with
    | true => exact .withdraws final key
    | false => exact .replaces final key

theorem work_shelves (s : Service) (id : Nat) :
    Shelves s (.work id) (s.work id).snapshots := by
  unfold work
  split
  case h_2 => exact .still
  case h_1 w at_ =>
    have shelf : Shelves s (.work id) (s.perform w).1.snapshots := by
      cases w with
      | enqueue | remove | record => exact .still
      | persist e =>
        have final : s.persisted? (.work id) = some (e, (s.persistFinal e).2) := by
          simp only [persisted?, at_]
        exact persisted_shelves final persistFinal_of_none persistFinal_of_some
      | cache e =>
        have sketch : s.sketched? (.work id) = some e := by simp only [sketched?, at_]
        rw [show (s.perform (.cache e)).1 = s.writeSnapshot e from rfl]
        cases keyed : e.key? with
        | none =>
          rw [writeSnapshot_of_none keyed]
          exact .still
        | some k =>
          rw [writeSnapshot_of_some keyed]
          split
          case isTrue both => exact .retracts sketch keyed ((Bool.and_eq_true_iff.mp both).2)
          case isFalse other =>
            exact .sketches sketch keyed fun ok => Bool.eq_false_iff.mpr fun marked =>
              other (Bool.and_eq_true_iff.mpr ⟨ok, marked⟩)
      | discard e outcome =>
        have ended : s.discarded? (.work id) = some e := by simp only [discarded?, at_]
        rw [show (s.perform (.discard e outcome)).1 = s.deleteSnapshot e from rfl]
        cases keyed : e.key? with
        | none =>
          rw [deleteSnapshot_of_none keyed]
          exact .still
        | some k =>
          rw [deleteSnapshot_of_some keyed]
          exact .discards ended keyed
      | resurrect =>
        obtain ⟨ks, shelf, left⟩ :=
          requeue_snapshots (s.report s.snapshots.stored.2) s.snapshots.stored.1
        exact shelf ▸ .clears ks left
    exact shelf

theorem unplan_snapshots (s : Service) (stage : Stage) :
    (s.unplan stage).snapshots = s.snapshots := by
  unfold unplan
  split
  · split <;> rfl
  · rfl

/-- A step of a task leaves the snapshots alone. -/
theorem advance_snapshots (s : Service) (id : Nat) : (s.advance id).snapshots = s.snapshots := by
  cases at_ : s.stage? id with
  | none => simp only [advance, at_]
  | some old =>
    obtain ⟨held, new, _, turns⟩ := advance_advances at_
    exact turns.snapshots.trans (s.unplan_snapshots old)

theorem step_shelves (s : Service) (m : Move) : Shelves s m (s.step m).snapshots := by
  cases m with
  | call | setClock | elapse => exact .still
  | envelope e type =>
    cases type with
    | normalEnd | periodic => exact .still
    | crash =>
      exact persisted_shelves (t := ((s.markFinalized e).persistFinal e).1) rfl
        (persistFinal_of_none (s := s.markFinalized e))
        (persistFinal_of_some (s := s.markFinalized e))
  | network status =>
    have same : (s.step (.network status)).snapshots = s.snapshots := by
      simp only [step, setNetwork]
      split <;> rfl
    exact same ▸ .still
  | advance id => exact s.advance_snapshots id ▸ .still
  | work id => exact work_shelves s id
  | answer id reply =>
    have same : (s.step (.answer id reply)).snapshots = s.snapshots := by
      simp only [step, answer]
      split <;> rfl
    exact same ▸ .still
  | fire id =>
    have same : (s.step (.fire id)).snapshots = s.snapshots := by
      simp only [step, fire]
      split
      · split <;> rfl
      · rfl
    exact same ▸ .still

end Service

end Outbox
