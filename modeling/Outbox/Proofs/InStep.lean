import Outbox.Proofs.Durability
import Outbox.Proofs.Restart
import Outbox.Proofs.StoreEntries

/-! # A queue in step with its store

As long as what a queue holds is on disk and no more is stored than the quota allows, files cause no
trouble: a delivery is taken out or its attempt counted without a report, nothing else changes, and
the queue is in step afterwards.
-/

namespace Outbox

namespace Storage.Store

open Place

variable {s : Store} {k : Key} {b : Bytes}

theorem Has.takes (has : s.Has k b) : s.Takes k := by
  obtain ⟨fit, found⟩ := openFile_eq_ok_iff.mp has
  refine ⟨fit, fun blocked => ?_, fun folder => ?_⟩
  · rw [blocked] at found
    cases found
  · cases found.symm.trans folder

theorem Has.delete_reports (has : s.Has k b) : (s.delete k).2 = [] := by
  obtain ⟨place, max⟩ := s
  obtain ⟨fit, found⟩ := openFile_eq_ok_iff.mp has
  cases place with
  | absent | blocked => cases found
  | folder es =>
    have found : entry? es k.name = some (.file (.gzip b)) := found
    simp [Store.delete, removeFile, fit, found]

/-- Deleting leaves no more payloads than there were. -/
theorem Has.stored_delete_le (has : s.Has k b) :
    (s.delete k).1.stored.1.length ≤ s.stored.1.length := by
  rw [(s.delete k).1.stored_perm.length_eq, s.stored_perm.length_eq, keys, keys,
    has.takes.entries_delete]
  exact (List.filter_sublist.filterMap _).length_le

/-- A payload in place of another one makes no more of them. -/
theorem Has.stored_written_le (has : s.Has k b) (c : Bytes) :
    (s.written k c).stored.1.length ≤ s.stored.1.length := by
  obtain ⟨_, found⟩ := openFile_eq_ok_iff.mp has
  obtain ⟨front, back, whole, _⟩ := List.lookup_eq_some_iff.mp found
  have member : (k.name, Node.file (.gzip b)) ∈ s.place.entries := by simp [whole]
  have own : 0 < (s.place.entries.filter fun e => !(e.1 != k.name)).countP
      fun e => (keyOf? e.1).isSome := by
    refine List.countP_pos_iff.mpr ⟨_, List.mem_filter.mpr ⟨member, by simp⟩, ?_⟩
    simp [keyOf?_name]
  have parts := List.countP_eq_countP_filter_add s.place.entries
    (fun e => (keyOf? e.1).isSome) (fun e => e.1 != k.name)
  rw [(s.written k c).stored_perm.length_eq, s.stored_perm.length_eq, keys_written,
    List.length_append, List.length_filterMap_eq_countP, keys, List.length_filterMap_eq_countP,
    parts, without, List.length_singleton]
  omega

/-- Within its quota a store puts a payload in place of another one, and that is all. -/
theorem Has.putBytes_eq (has : s.Has k b) (room : s.stored.1.length ≤ s.maxEntries) (c : Bytes) :
    s.putBytes k c = (s.written k c, [], .ok []) := by
  have few : (s.written k c).stored.1.length ≤ (s.written k c).maxEntries :=
    Nat.le_trans (has.stored_written_le c) room
  have enforced : (s.written k c).enforce s.maxEntries = (s.written k c, [], []) := by
    have kept : (s.written k c).stored.1.length ≤ s.maxEntries := few
    rw [enforce]
    simp only [kept, if_true]
    rfl
  obtain ⟨place, max⟩ := s
  obtain ⟨fit, found⟩ := openFile_eq_ok_iff.mp has
  cases place with
  | absent | blocked => cases found
  | folder es =>
    have found : entry? es k.name = some (.file (.gzip b)) := found
    have placed : write (.folder es) k (.ofBytes c) =
        (.folder (withEntry es k.name (.file (.gzip c))), .ok ()) := by
      simp [write, create, Draft.ofBytes, Draft.payload?, putFile, fit, found]
    have enforced : (⟨.folder (withEntry es k.name (.file (.gzip c))), max⟩ : Store).enforce max =
        (Store.written ⟨.folder es, max⟩ k c, [], []) := enforced
    simp only [Store.putBytes, Store.put, placed, enforced]

theorem Has.written (has : s.Has k b) {l : Key} (other : l ≠ k) (c : Bytes) :
    (s.written l c).Has k b :=
  has.of_entry (entry?_withEntry_of_ne (fun same => other (Key.name_injective same).symm) _)

end Storage.Store

open Storage (Key Store)

namespace Queue

/-- What the queue holds is on disk, and the store is within its quota. -/
structure InStep (q : Queue) : Prop where
  tidy : q.Tidy
  onDisk : ∀ p, q.Holds p → q.OnDisk p
  room : q.store.stored.1.length ≤ q.store.maxEntries

variable {q : Queue} {p : Pending} {e : Endpoint} {ps : List Pending} {ds : List Pending}

/-- Any queue is in step with its store that began with an empty one and was filled within the
quota. -/
theorem Synced.inStep (adm : Admissible ds) (synced : Synced ds q)
    (room : q.size ≤ q.store.maxEntries) : q.InStep where
  tidy := synced.tidy
  onDisk p there := by
    obtain ⟨k, keyed, fit⟩ := synced.keyed adm there
    refine ⟨k, keyed, Storage.Place.openFile_eq_ok_iff.mpr ⟨fit, ?_⟩⟩
    exact (Storage.Place.entry?_eq_some_iff synced.own.files.distinct).mpr
      (synced.file_mem there keyed)
  room := by
    rw [synced.length_stored adm]
    exact room

theorem key_ne_of_ne (tidy : q.Tidy) {x : Pending} (there : q.Holds p) (there' : q.Holds x)
    (other : x ≠ p) {k l : Key} (keyed : p.key? = some k) (keyed' : x.key? = some l) : k ≠ l := by
  rintro rfl
  obtain ⟨_, home, id⟩ := Pending.key?_eq_some keyed
  obtain ⟨_, home', id'⟩ := Pending.key?_eq_some keyed'
  exact other (tidy.eq_of_id there' there (home'.symm.trans home) (id'.symm.trans id))

theorem InStep.home (step : q.InStep) (pending : q.pending e = p :: ps) : p.endpoint = e :=
  step.tidy.home e p (by simp [pending])

theorem InStep.holds (step : q.InStep) (pending : q.pending e = p :: ps) : q.Holds p := by
  rw [Holds, step.home pending, pending]
  exact List.mem_cons_self

theorem InStep.others (step : q.InStep) (pending : q.pending e = p :: ps) :
    ∀ x ∈ ps, x.id ≠ p.id := by
  intro x member same
  have ids := step.tidy.ids e
  rw [pending, List.map_cons, List.nodup_cons] at ids
  exact ids.1 (List.mem_map.mpr ⟨x, member, same⟩)

/-- The first delivery is taken out. -/
theorem InStep.remove (step : q.InStep) (pending : q.pending e = p :: ps) :
    (q.remove p).2 = [] ∧ (q.remove p).1.InStep ∧ (q.remove p).1.pending e = ps ∧
      ∀ f ≠ e, (q.remove p).1.pending f = q.pending f := by
  have home := step.home pending
  have there := step.holds pending
  obtain ⟨k, keyed, has⟩ := step.onDisk p there
  have result : q.remove p =
      (({ q with store := (q.store.delete k).1 } : Queue).forget p.endpoint p.id, []) := by
    simp only [Queue.remove, show p.key? = some k from keyed, has.delete_reports]
  rw [result]
  refine ⟨rfl, ⟨?_, fun x held => ?_, ?_⟩, ?_, fun f other => ?_⟩
  · exact (step.tidy.withStore _).forget _ _
  · obtain ⟨held, apart⟩ := holds_forget.mp held
    have other : x ≠ p := fun same => apart (same ▸ ⟨rfl, rfl⟩)
    obtain ⟨l, keyed', has'⟩ := step.onDisk x held
    exact ⟨l, keyed', has'.delete (key_ne_of_ne step.tidy there held other keyed keyed')⟩
  · rw [forget_store]
    exact Nat.le_trans has.stored_delete_le (by rw [Store.maxEntries_delete]; exact step.room)
  · have others := step.others pending
    rw [pending_forget, if_pos home.symm]
    rw [show Queue.pending { q with store := (q.store.delete k).1 } e = p :: ps from pending]
    simpa using others
  · rw [pending_forget, if_neg (home ▸ other)]
    rfl

/-- A failed attempt of the first delivery is counted. -/
theorem InStep.recordFailure (step : q.InStep) (pending : q.pending e = p :: ps) (now : Millis) :
    (q.recordFailure p now).2 = ([], p.failed now) ∧ (q.recordFailure p now).1.InStep ∧
      (q.recordFailure p now).1.pending e = p.failed now :: ps ∧
      ∀ f ≠ e, (q.recordFailure p now).1.pending f = q.pending f := by
  have home := step.home pending
  have there := step.holds pending
  obtain ⟨k, keyed, has⟩ := step.onDisk p there
  have keyed_ : (p.failed now).key? = some k :=
    (Pending.key?_of_origin (Pending.origin_failed p now)).trans keyed
  have result : q.recordFailure p now =
      (({ q with store := q.store.written k (p.failed now).encode } : Queue).remember
        (p.failed now), [], p.failed now) := by
    simp only [Queue.recordFailure, Queue.save, keyed_, has.putBytes_eq step.room]
    rfl
  rw [result]
  refine ⟨rfl, ⟨?_, fun x held => ?_, ?_⟩, ?_, fun f other => ?_⟩
  · exact (step.tidy.withStore _).remember _
  · rcases holds_remember.mp held with rfl | ⟨held, apart⟩
    · exact ⟨k, keyed_, Store.written_has _ has.takes.fit _⟩
    · have other : x ≠ p := fun same => apart (same ▸ ⟨rfl, rfl⟩)
      obtain ⟨l, keyed', has'⟩ := step.onDisk x held
      exact ⟨l, keyed', has'.written (key_ne_of_ne step.tidy there held other keyed keyed') _⟩
  · rw [remember_store]
    exact Nat.le_trans (has.stored_written_le _) step.room
  · have others := step.others pending
    have kept : ps.map (fun x => if x.id = p.id then p.failed now else x) = ps := by
      refine (List.map_congr_left fun x member => ?_).trans (List.map_id ps)
      rw [if_neg (others x member), id]
    have same : (p.failed now).endpoint = p.endpoint ∧ (p.failed now).id = p.id := ⟨rfl, rfl⟩
    rw [pending_remember, same.1, if_pos home.symm,
      show Queue.pending { q with store := q.store.written k (p.failed now).encode } e = p :: ps
        from pending, insert]
    simp [same.2, kept]
  · rw [pending_remember, if_neg (home ▸ other)]
    rfl

end Queue

end Outbox
