import Outbox.Proofs.Identity
import Outbox.Proofs.Quota

/-! # What is on disk

Putting a payload in the queue tells whether storing it worked, and the snapshot of an envelope is
deleted if so. Storing works for a payload that the quota takes at once, too. So the payload is on
disk exactly if storing worked and the quota had room, and where it had none the snapshot is deleted
and nothing is left.
-/

namespace Outbox

open Storage (Key Store Content)

namespace Queue

/-- The store of the queue has the delivery. -/
def OnDisk (q : Queue) (p : Pending) : Prop := ∃ k ∈ p.key?, q.store.Has k p.encode

/-- The quota has room for the delivery, with what is stored already. -/
def HasRoom (q : Queue) (p : Pending) : Prop :=
  ∃ k ∈ p.key?, q.store.ahead k < q.store.maxEntries

instance (q : Queue) (p : Pending) : Decidable (q.OnDisk p) :=
  inferInstanceAs (Decidable (∃ _ ∈ _, _))

instance (q : Queue) (p : Pending) : Decidable (q.HasRoom p) :=
  inferInstanceAs (Decidable (∃ _ ∈ _, _))

/-- Saving a delivery that has a key writes its file, and works if that does. -/
theorem save_file {q : Queue} {p : Pending} {k : Key} (keyed : p.key? = some k) :
    (q.save p).1.store = (q.store.putBytes k p.encode).1 ∧
      (q.save p).2.2.isOk = (q.store.putBytes k p.encode).2.2.isOk := by
  simp only [save, keyed]
  split <;> rename_i done <;> rw [done]
  · exact ⟨forgetAll_store _ _, rfl⟩
  · exact ⟨rfl, rfl⟩

/-- A delivery is on disk after saving it exactly if that worked and the quota has room. -/
theorem onDisk_save_iff (q : Queue) (p : Pending) :
    (q.save p).1.OnDisk p ↔ (q.save p).2.2.isOk = true ∧ q.HasRoom p := by
  cases keyed : p.key? with
  | none => simp [OnDisk, HasRoom, keyed]
  | some k =>
    obtain ⟨store, done⟩ := save_file (q := q) keyed
    simp [OnDisk, HasRoom, keyed, store, done, Store.putBytes_has_iff]

end Queue

namespace Service

variable {s : Service} {k : Key}

/-- There is no snapshot under the key, and the delivery in place of it is not on disk. -/
def Lost (s : Service) (k : Key) (p : Pending) : Prop :=
  s.snapshots.Lacks k ∧ ¬s.queue.OnDisk p

instance (s : Service) (k : Key) (p : Pending) : Decidable (s.Lost k p) :=
  inferInstanceAs (Decidable (_ ∧ _))

/-- The queue has a new delivery on disk exactly if storing it worked and the quota has room. -/
theorem onDisk_enqueue_iff (s : Service) (e : Endpoint) (payload : Bytes) :
    (s.enqueue e payload).1.queue.OnDisk (s.enqueue e payload).2.1 ↔
      (s.enqueue e payload).2.2 = true ∧ s.queue.HasRoom (s.enqueue e payload).2.1 :=
  s.queue.onDisk_save_iff (s.enqueue e payload).2.1

theorem snapshotKey?_of_make {e : Envelope} (made : Key.make e.start e.kind e.id = .ok k) :
    s.snapshotKey? e = (s, some k) := by
  rw [snapshotKey?, made]

theorem deleteSnapshot_files {e : Envelope} (made : Key.make e.start e.kind e.id = .ok k) :
    (s.deleteSnapshot e).snapshots = (s.snapshots.delete k).1 ∧
      (s.deleteSnapshot e).queue = s.queue := by
  rw [deleteSnapshot, snapshotKey?_of_make made]
  exact ⟨rfl, rfl⟩

theorem storeSnapshot_files {e : Envelope} (made : Key.make e.start e.kind e.id = .ok k) :
    (s.storeSnapshot e).1.snapshots = (s.snapshots.putBytes k e.encode).1 ∧
      (s.storeSnapshot e).1.queue = s.queue := by
  rw [storeSnapshot, snapshotKey?_of_make made]
  exact ⟨rfl, rfl⟩

theorem persistFinal_of_durable {e : Envelope}
    (durable : (s.enqueue e.endpoint e.body).2.2 = true) : s.persistFinal e =
      ((s.enqueue e.endpoint e.body).1.deleteSnapshot e, (s.enqueue e.endpoint e.body).2.1,
        true) := by
  simp only [persistFinal, durable, if_true]

theorem persistFinal_of_not_durable {e : Envelope}
    (failed : (s.enqueue e.endpoint e.body).2.2 = false) : s.persistFinal e =
      (((s.enqueue e.endpoint e.body).1.storeSnapshot e).1, (s.enqueue e.endpoint e.body).2.1,
        false) := by
  simp only [persistFinal, failed, Bool.false_eq_true, if_false]

/-- Persisting the final form of an envelope loses it if storing it worked and the quota of the
queue had no room, or if that failed and the quota of the snapshots has no room. -/
theorem lost_persistFinal_iff {e : Envelope} {content : Content}
    (made : Key.make e.start e.kind e.id = .ok k)
    (there : s.snapshots.place.openFile k.name = .ok (.file content)) :
    (s.persistFinal e).1.Lost k (s.persistFinal e).2.1 ↔
      ((s.persistFinal e).2.2 = true ∧ ¬s.queue.HasRoom (s.persistFinal e).2.1) ∨
      ((s.persistFinal e).2.2 = false ∧ s.snapshots.maxEntries ≤ s.snapshots.ahead k) := by
  have disk := s.onDisk_enqueue_iff e.endpoint e.body
  have same : (s.enqueue e.endpoint e.body).1.snapshots = s.snapshots := rfl
  cases durable : (s.enqueue e.endpoint e.body).2.2 with
  | true =>
    obtain ⟨snapshots, queue⟩ := deleteSnapshot_files (s := (s.enqueue e.endpoint e.body).1) made
    have gone : (s.snapshots.delete k).1.Lacks k := Store.delete_lacks there
    simp [persistFinal_of_durable durable, Lost, snapshots, queue, same, gone, disk, durable]
  | false =>
    obtain ⟨snapshots, queue⟩ := storeSnapshot_files (s := (s.enqueue e.endpoint e.body).1) made
    have stored := Store.putBytes_isOk (b := e.encode) there
    have kept : (s.snapshots.putBytes k e.encode).1.Lacks k ↔
        s.snapshots.maxEntries ≤ s.snapshots.ahead k := by
      refine ⟨fun lacks => Nat.le_of_not_lt fun room => ?_, Store.putBytes_lacks stored⟩
      exact (Store.putBytes_has stored room).not_lacks lacks
    simp [persistFinal_of_not_durable durable, Lost, snapshots, queue, same, kept, disk, durable]

/-- A readable snapshot is put in the queue, and is deleted if that worked. -/
theorem requeue_snapshot {b : Bytes} {e : Envelope} (open_ : s.isFinalized k.id = false)
    (read : (s.snapshots.loadBytes k).2 = .ok (some b)) (decoded : Envelope.decode? b = some e) :
    (s.requeue [k]).1.queue = (s.enqueue e.endpoint e.body).1.queue ∧
      (s.requeue [k]).1.snapshots =
        if (s.enqueue e.endpoint e.body).2.2 then (s.snapshots.delete k).1 else s.snapshots := by
  have silent : s.report (s.snapshots.loadBytes k).1 = s := by
    rw [(Store.openFile_of_loadBytes read).1]
    rfl
  simp only [requeue, open_, Bool.false_eq_true, if_false, read, decoded, silent]
  split <;> exact ⟨rfl, rfl⟩

/-- Queueing a snapshot loses it if storing it worked and the quota of the queue had no room. -/
theorem lost_requeue_iff {b : Bytes} {e : Envelope} (open_ : s.isFinalized k.id = false)
    (read : (s.snapshots.loadBytes k).2 = .ok (some b)) (decoded : Envelope.decode? b = some e) :
    (s.requeue [k]).1.Lost k (s.enqueue e.endpoint e.body).2.1 ↔
      (s.enqueue e.endpoint e.body).2.2 = true ∧
        ¬s.queue.HasRoom (s.enqueue e.endpoint e.body).2.1 := by
  obtain ⟨_, content, there⟩ := Store.openFile_of_loadBytes read
  have gone : (s.snapshots.delete k).1.Lacks k := Store.delete_lacks there
  have kept : ¬s.snapshots.Lacks k := fun lacks => lacks _ there
  obtain ⟨queue, snapshots⟩ := requeue_snapshot open_ read decoded
  rw [Lost, queue, snapshots, s.onDisk_enqueue_iff]
  split <;> simp [*]

theorem requeue_append (s : Service) (ks ls : List Key) :
    (s.requeue (ks ++ ls)).1 = ((s.requeue ks).1.requeue ls).1 := by
  induction ks generalizing s with
  | nil => rfl
  | cons k ks ih =>
    simp only [List.cons_append, requeue]
    split
    · exact ih s
    · split
      · exact ih _
      · exact ih _
      · split
        · exact ih _
        · exact ih _

/-- A delivery that the queue reports as durable is on disk exactly if the quota had room for it.
Whoever replaces a snapshot by such a delivery leaves nothing on disk where it had none; nothing
else is lost that way, apart from a snapshot that could not be queued and that its own quota
takes. -/
theorem durable_iff_room (s : Service) :
    (∀ e payload, (s.enqueue e payload).1.queue.OnDisk (s.enqueue e payload).2.1 ↔
      (s.enqueue e payload).2.2 = true ∧ s.queue.HasRoom (s.enqueue e payload).2.1) ∧
    (∀ e k content, Key.make e.start e.kind e.id = .ok k →
      s.snapshots.place.openFile k.name = .ok (.file content) →
      ((s.persistFinal e).1.Lost k (s.persistFinal e).2.1 ↔
        ((s.persistFinal e).2.2 = true ∧ ¬s.queue.HasRoom (s.persistFinal e).2.1) ∨
        ((s.persistFinal e).2.2 = false ∧ s.snapshots.maxEntries ≤ s.snapshots.ahead k))) ∧
    (∀ k b e, s.isFinalized k.id = false → (s.snapshots.loadBytes k).2 = .ok (some b) →
      Envelope.decode? b = some e →
      ((s.requeue [k]).1.Lost k (s.enqueue e.endpoint e.body).2.1 ↔
        (s.enqueue e.endpoint e.body).2.2 = true ∧
          ¬s.queue.HasRoom (s.enqueue e.endpoint e.body).2.1)) ∧
    (∀ ks ls, (s.requeue (ks ++ ls)).1 = ((s.requeue ks).1.requeue ls).1) :=
  ⟨s.onDisk_enqueue_iff, fun _ _ _ => lost_persistFinal_iff, fun _ _ _ => lost_requeue_iff,
    s.requeue_append⟩

/-- A crash is in a queue whose store has room for one file, and there is a snapshot of a log. -/
def crowded : Service :=
  (start .default countedIds 0 0 ⟨.absent, 1⟩ ⟨.absent, 100⟩).run
    [.network .notReachable, .call (.send .crashes [1]), .advance 0, .work 0, .advance 0,
      .envelope ⟨"log", .log, 5, none, .foreground, [2]⟩ .periodic, .advance 1, .advance 1,
      .work 1, .advance 1]

/-- The final form of the log. -/
def finalLog : Envelope := ⟨"log", .log, 5, some 6, .foreground, [3]⟩

/-- The key of the snapshot. -/
def logKey : Key := ⟨5, .log, "log", by decide⟩

/-- The snapshot of the log, as it is stored. -/
def logSnapshot : Bytes := Envelope.encode ⟨"log", .log, 5, none, .foreground, [2]⟩

/-- The snapshot is lost, whether it is replaced by the final form or put in the queue. -/
theorem durable_iff_room_of_crowded :
    (crowded.persistFinal finalLog).1.Lost logKey (crowded.persistFinal finalLog).2.1 ∧
      (crowded.requeue [logKey]).1.Lost logKey (crowded.enqueue .logs [2]).2.1 := by
  have there : crowded.snapshots.place.openFile logKey.name = .ok (.file (.gzip logSnapshot)) := by
    decide +kernel
  have read : (crowded.snapshots.loadBytes logKey).2 = .ok (some logSnapshot) := by
    decide +kernel
  have open_ : crowded.isFinalized logKey.id = false := by decide +kernel
  have decoded : Envelope.decode? logSnapshot = some ⟨"log", .log, 5, none, .foreground, [2]⟩ := by
    decide +kernel
  obtain ⟨_, persists, requeues, _⟩ := durable_iff_room crowded
  refine ⟨(persists finalLog logKey _ (by decide) there).mpr (.inl ?_),
    (requeues logKey _ _ open_ read decoded).mpr ?_⟩
  · decide +kernel
  · decide +kernel

/-- The queue reports the final form of the log as durable, and the store does not have it. -/
theorem durable_without_file :
    crowded.Reachable ∧ (crowded.enqueue finalLog.endpoint finalLog.body).2.2 = true ∧
      ¬(crowded.enqueue finalLog.endpoint finalLog.body).1.queue.OnDisk
        (crowded.enqueue finalLog.endpoint finalLog.body).2.1 := by
  have full : ¬crowded.queue.HasRoom (crowded.enqueue finalLog.endpoint finalLog.body).2.1 := by
    decide +kernel
  refine ⟨(Reachable.start _ _ _ _ _ _).run _, by decide +kernel, fun there => full ?_⟩
  exact ((onDisk_enqueue_iff _ _ _).mp there).2

end Service

end Outbox
