import Outbox.Core
import Outbox.Proofs.LaneOrder
import Outbox.Proofs.Reload
import Outbox.Proofs.Restart
import Outbox.Proofs.Snapshots
import Outbox.Proofs.Succession
import Outbox.Rehearsal.Puppet

/-! # Crashes are on disk

A process that crashes may not live to see its tasks go on. So when the call that reports a crash
returns, the final form of the running envelope is a file already, from which the next process loads
the delivery, and the snapshot of the envelope is gone. Nothing of that waits for a task, and what
else is in the stores does not matter.
-/

namespace Outbox

open Storage (Key Store Place Node)

/-- A final form keeps what the snapshots of its envelope are named after. -/
def Host.Faithful {σ : Type} (h : Host σ) : Prop :=
  ∀ params x final, (h.buildFinal params x).1 = .value final →
    final.id = params.envelope.id ∧ final.kind = params.envelope.kind ∧
      final.start = params.envelope.start

theorem Host.Faithful.key? {σ : Type} {h : Host σ} (faithful : h.Faithful) {params : FinalParams}
    {x : σ} {final : Envelope} (built : (h.buildFinal params x).1 = .value final) :
    final.key? = params.envelope.key? := by
  obtain ⟨id, kind, start⟩ := faithful params x final built
  rw [Envelope.key?, Envelope.key?, id, kind, start]

theorem Puppet.host_faithful : Puppet.host.Faithful := by
  intro params x final built
  cases fault : x.finalFault <;>
    simp only [host, buildFinal, fault, Fault.apply] at built <;> cases built
  exact ⟨rfl, rfl, rfl⟩

namespace Storage.Store

variable {s : Store} {k : Key} {b : Bytes}

/-- Nothing in the store has to do with the id: no file is named after it, and none holds a delivery
with it. -/
structure Unheard (s : Store) (id : String) : Prop where
  keys : ∀ l ∈ s.keys, l.id ≠ id
  deliveries : ∀ p ∈ s.deliveries, p.id ≠ id

theorem Unheard.lacks (unheard : s.Unheard k.id) : Place.entry? s.place.entries k.name = none := by
  rw [Option.eq_none_iff_forall_ne_some]
  exact fun node there => unheard.keys k (mem_keys_of_entry there (keyOf?_name k)) rfl

theorem mem_deliveries_of_file {name : String} {content : Content} {p : Pending}
    (found : Place.entry? s.place.entries name = some (.file content))
    (read : content.payload? = .ok b) (decoded : Pending.decode? b = some p) :
    p ∈ s.deliveries := by
  obtain ⟨front, back, whole, _⟩ := List.lookup_eq_some_iff.mp found
  refine List.mem_filterMap.mpr ⟨(name, .file content), by simp [whole], ?_⟩
  simp [Node.payload?, read, decoded]

theorem deliveries_delete (s : Store) (k : Key) : (s.delete k).1.deliveries ⊆ s.deliveries := by
  intro p member
  obtain ⟨f, present, read⟩ := List.mem_filterMap.mp member
  exact List.mem_filterMap.mpr ⟨f, delete_entries s k present, read⟩

theorem deliveries_deleteAll (s : Store) (ks : List Key) :
    (s.deleteAll ks).1.deliveries ⊆ s.deliveries := by
  induction ks generalizing s with
  | nil => exact fun _ member => member
  | cons k ks ih => exact fun p member => deliveries_delete s k (ih (s.delete k).1 member)

/-- Storing a delivery brings no other one. -/
theorem mem_deliveries_putBytes {p x : Pending}
    (member : x ∈ (s.putBytes k p.encode).1.deliveries) : x = p ∨ x ∈ s.deliveries := by
  rcases s.putBytes_eq k p.encode with ⟨_, reports, result⟩ | ⟨_, same, _⟩
  · rw [result, enforce_place] at member
    obtain ⟨f, present, read⟩ := List.mem_filterMap.mp (deliveries_deleteAll _ _ member)
    rcases Place.mem_withEntry.mp present with ⟨old, _⟩ | rfl
    · exact .inr (List.mem_filterMap.mpr ⟨f, old, read⟩)
    · have decoded : Pending.decode? p.encode = some x := read
      rw [Pending.decode?_encode] at decoded
      exact .inl (Option.some.inj decoded).symm
  · rw [deliveries, same] at member
    exact .inr member

/-- Nothing is left in a file that was deleted. -/
theorem no_file_of_delete (s : Store) (k : Key) (content : Content) :
    (s.delete k).1.place.openFile k.name ≠ .ok (.file content) := by
  cases found : s.place.openFile k.name with
  | error e =>
    exact delete_lacks_of_lacks k (fun node there => by cases found.symm.trans there) _
  | ok node =>
    cases node with
    | file old => exact delete_lacks found _
    | folder =>
      intro there
      obtain ⟨_, old⟩ := Place.openFile_eq_ok_iff.mp found
      obtain ⟨_, new⟩ := Place.openFile_eq_ok_iff.mp there
      cases old.symm.trans (entry?_of_delete new)

end Storage.Store

/-! ## Loading what is there -/

namespace Queue

variable {q : Queue} {store : Store} {k : Key} {p x : Pending}

theorem mem_deliveries_of_under (there : store.under k = .pending x) : x ∈ store.deliveries := by
  unfold Store.under at there
  split at there
  case h_1 content opened =>
    split at there
    case h_1 b read =>
      cases decoded : Pending.decode? b with
      | none => simp [decoded] at there
      | some y =>
        simp only [decoded, Option.elim_some, Found.pending.injEq] at there
        exact Store.mem_deliveries_of_file (Place.openFile_eq_ok_iff.mp opened).2 read
          (decoded.trans (congrArg some there))
    case h_2 => cases there
  all_goals cases there

theorem under_of_has (has : store.Has k p.encode) : store.under k = .pending p := by
  have opened : store.place.openFile k.name = .ok (.file (.gzip p.encode)) := has
  simp [Store.under, opened, Storage.Content.payload?, Pending.decode?_encode]

/-- A new queue loads a delivery that its store has, whatever else is there, if no other one has its
id. -/
theorem get?_load (has : store.Has k p.encode)
    (alone : ∀ x ∈ store.deliveries, x.id = p.id → x = p) :
    (ofStore store).load.1.get? p.endpoint p.id = some p := by
  have listed : k ∈ store.stored.1 :=
    store.stored_perm.mem_iff.mpr
      (Store.mem_keys_of_entry (Place.openFile_eq_ok_iff.mp has).2 (Storage.Store.keyOf?_name k))
  have known : (ofStore store).load.1.contains p.endpoint p.id = true :=
    contains_loadKeys (q := ofStore store) listed (under_of_has has)
  obtain ⟨x, found⟩ := Option.isSome_iff_exists.mp known
  obtain ⟨_, id, held⟩ := (ofStore_tidy store).load.get?_eq_some_iff.mp found
  rcases (loads (ofStore store) store.stored.1).mem_pending held with before | ⟨l, there⟩
  · simp [pending, ofStore] at before
  · rw [found, alone x (mem_deliveries_of_under there) id]

end Queue

/-! ## The final form that a crash leaves -/

theorem Pending.key?_make {id : String} {sequence : Word64} {e : Envelope} {now : Millis} {k : Key}
    (keyed : Key.make now e.kind id = .ok k) :
    (Pending.make id sequence e.endpoint e.body now).key? = some k := by
  have kind : e.endpoint.kind? = some e.kind := Endpoint.kind?_eq_some_iff.mpr rfl
  simp only [Pending.key?, Pending.make, kind, keyed]

namespace Service

variable {s : Service} {e : Envelope} {k : Key}

/-- Putting a payload in the queue writes the file of the new delivery, and works if that does. -/
theorem enqueue_file (keyed : Key.make s.clock e.kind (s.idOf s.made) = .ok k) :
    (s.enqueue e.endpoint e.body).2.1.key? = some k ∧
      (s.enqueue e.endpoint e.body).1.queue.store =
        (s.queue.store.putBytes k (s.enqueue e.endpoint e.body).2.1.encode).1 ∧
      (s.enqueue e.endpoint e.body).2.2 =
        (s.queue.store.putBytes k (s.enqueue e.endpoint e.body).2.1.encode).2.2.isOk := by
  have named : (s.enqueue e.endpoint e.body).2.1.key? = some k := Pending.key?_make keyed
  exact ⟨named, Queue.save_file named⟩

/-- A new delivery is on disk, and a new queue loads it. -/
theorem enqueue_durable (keyed : Key.make s.clock e.kind (s.idOf s.made) = .ok k)
    (takes : s.queue.store.Takes k) (room : s.queue.store.ahead k < s.queue.store.maxEntries)
    (unheard : s.queue.store.Unheard k.id) :
    (s.enqueue e.endpoint e.body).2.2 = true ∧
      (s.enqueue e.endpoint e.body).1.queue.store.Has k
        (s.enqueue e.endpoint e.body).2.1.encode ∧
      (Queue.ofStore (s.enqueue e.endpoint e.body).1.queue.store).load.1.get?
        (s.enqueue e.endpoint e.body).2.1.endpoint (s.enqueue e.endpoint e.body).2.1.id =
        some (s.enqueue e.endpoint e.body).2.1 := by
  obtain ⟨named, store, durable⟩ := enqueue_file keyed
  generalize s.enqueue e.endpoint e.body = r at named store durable ⊢
  have done := takes.putBytes_isOk r.2.1.encode
  have has := Store.putBytes_has done room
  rw [store]
  refine ⟨durable.trans done, has, Queue.get?_load has fun x member same => ?_⟩
  rcases Store.mem_deliveries_putBytes member with rfl | old
  · rfl
  · have id : k.id = r.2.1.id := (Pending.key?_eq_some named).2.2
    exact absurd (same.trans id.symm) (unheard.deliveries x old)

/-- A new task leaves the files alone. -/
theorem spawn_frame (s : Service) (job : Job) :
    (s.spawn job).queue = s.queue ∧ (s.spawn job).snapshots = s.snapshots ∧
      (s.spawn job).tasks = s.tasks ++ [⟨true, none, .spawned job⟩] :=
  ⟨rfl, rfl, rfl⟩

theorem deleteSnapshot_frame (s : Service) (e : Envelope) :
    (s.deleteSnapshot e).queue = s.queue ∧ (s.deleteSnapshot e).tasks = s.tasks := by
  unfold deleteSnapshot snapshotKey?
  cases Key.make e.start e.kind e.id <;> exact ⟨rfl, rfl⟩

/-- A crash whose delivery is on disk leaves one more task, which has yet to begin. -/
theorem sendEnvelope_of_durable {p : Pending} {t : Service}
    (enqueued : (s.markFinalized e).enqueue e.endpoint e.body = (t, p, true)) :
    (s.sendEnvelope e .crash).queue = t.queue ∧
      (s.sendEnvelope e .crash).snapshots = (t.deleteSnapshot e).snapshots ∧
      (s.sendEnvelope e .crash).tasks =
        s.tasks ++ [⟨true, none, .spawned (.sendFinal e p true)⟩] := by
  have durable : ((s.markFinalized e).enqueue e.endpoint e.body).2.2 = true := by rw [enqueued]
  have tasks : t.tasks = s.tasks := congrArg (fun r => r.1.tasks) enqueued.symm
  obtain ⟨queue, kept⟩ := deleteSnapshot_frame t e
  simp only [sendEnvelope, persistFinal_of_durable durable, enqueued]
  rw [← queue, ← tasks, ← kept]
  exact spawn_frame _ _

/-- No snapshot of the envelope is left where its final form is on disk. -/
theorem no_snapshot_of_deleteSnapshot (keyed : e.key? = some k) (content : Storage.Content) :
    (s.deleteSnapshot e).snapshots.place.openFile k.name ≠ .ok (.file content) := by
  rw [deleteSnapshot_of_some keyed]
  exact Store.no_file_of_delete s.snapshots k content

end Service

namespace Core

variable {σ : Type} {h : Host σ} {c : Core σ} {e : Envelope} {k : Key} {id : String}

/-- A crash that is completed hands over what the host made of the running envelope. -/
theorem endWithCrash_service (running : c.session.active = some e)
    (completed : (c.endWithCrash h id).2 = .completed) : ∃ final,
      (h.buildFinal ⟨e, c.service.clock, .crash id⟩ c.host).1 = .value final ∧
      (c.endWithCrash h id).1.service = c.service.sendEnvelope final .crash := by
  have did := Session.transition_transits h c.service.config (.crash id) c.service.clock c.session
    c.host
  change (c.session.transition h _ _ _ _).result = .completed at completed
  have taken : (c.endWithCrash h id).1 = c.take
    (c.session.transition h c.service.config (.crash id) c.service.clock c.host) := rfl
  rw [taken]
  generalize c.session.transition h c.service.config (.crash id) c.service.clock c.host = turn
    at did completed ⊢
  cases did with
  | skips | unended | unprepared | unbegun => cases completed
  | completes ends =>
    simp only [Session.buildFinal, running] at ends
    split at ends
    case h_2 => cases ends
    case h_1 final built =>
      cases ends
      exact ⟨final, Attempt.outcome_eq_ok_iff.mp built, rfl⟩

/-- When a crash has been taken, and before any task has made a step, the store has one new file,
from which a new queue loads the final form of the running envelope, and there is no snapshot of the
envelope. The id of the delivery has to be new and to fit in a file name, the path has to be free
for the file, and the quota must not take it at once. -/
theorem crash_durable (faithful : h.Faithful) (running : c.session.active = some e)
    (keyed : Key.make c.service.clock e.kind (c.service.idOf c.service.made) = .ok k)
    (takes : c.service.queue.store.Takes k)
    (room : c.service.queue.store.ahead k < c.service.queue.store.maxEntries)
    (unheard : c.service.queue.store.Unheard k.id)
    (completed : (c.endWithCrash h id).2 = .completed) :
    let before := c.service
    let after := (c.endWithCrash h id).1.service
    ∃ final p,
      (h.buildFinal ⟨e, before.clock, .crash id⟩ c.host).1 = .value final ∧
      p.key? = some k ∧ p.endpoint = final.kind.endpoint ∧ p.payload = final.body ∧
      (Place.entry? before.queue.store.place.entries k.name = none ∧
        after.queue.store.Has k p.encode ∧
        ∀ name node, Place.entry? after.queue.store.place.entries name = some node →
          name = k.name ∨ Place.entry? before.queue.store.place.entries name = some node) ∧
      (Queue.ofStore after.queue.store).load.1.get? p.endpoint p.id = some p ∧
      (∀ l ∈ e.key?, ∀ content, after.snapshots.place.openFile l.name ≠ .ok (.file content)) ∧
      after.tasks = before.tasks ++ [⟨true, none, .spawned (.sendFinal final p true)⟩] := by
  intro before after
  obtain ⟨final, built, handed⟩ := endWithCrash_service running completed
  obtain ⟨-, kind, -⟩ := faithful _ _ _ built
  have handed : after = before.sendEnvelope final .crash := handed
  let marked := before.markFinalized final
  have named : Key.make marked.clock final.kind (marked.idOf marked.made) = .ok k := by
    rw [kind]
    exact keyed
  obtain ⟨durable, has, loads⟩ := Service.enqueue_durable (s := marked) named takes room unheard
  obtain ⟨named', store, -⟩ := Service.enqueue_file (s := marked) named
  have endpoint : (marked.enqueue final.endpoint final.body).2.1.endpoint = final.endpoint := rfl
  have payload : (marked.enqueue final.endpoint final.body).2.1.payload = final.body := rfl
  rcases enqueued : marked.enqueue final.endpoint final.body with ⟨t, p, stored⟩
  simp only [enqueued] at durable has loads named' store endpoint payload
  subst durable
  obtain ⟨queue, snapshots, tasks⟩ := Service.sendEnvelope_of_durable enqueued
  refine ⟨final, p, built, named', endpoint, payload, ⟨unheard.lacks, ?_, ?_⟩, ?_, ?_, ?_⟩
  · rw [handed, queue]
    exact has
  · intro name node there
    rw [handed, queue, store] at there
    exact (Store.entry?_of_putBytes there).imp_left And.left
  · rw [handed, queue]
    exact loads
  · intro l keyed content
    rw [← faithful.key? built] at keyed
    rw [handed, snapshots]
    exact Service.no_snapshot_of_deleteSnapshot keyed content
  · rw [handed, tasks]

/-- A log that an earlier process did not send. -/
def leftLog : Pending := .make "left" 0 .logs [1] 3

/-- A process has stored a checkpoint of its first session. The store of the queue has room for one
file, and that is the log. -/
def cramped : Core Puppet :=
  let pending : Store := ⟨.folder leftLog.file?.toList, 1⟩
  let c := start Puppet.host (.start .default Service.countedIds 0 5 pending ⟨.absent, 100⟩)
    .foreground .fresh
  let c := (c.checkpoint Puppet.host).1
  { c with service := c.service.run [.advance 1, .advance 1, .work 1, .advance 1] }

/-- The first session, as long as it runs. -/
def firstSession : Envelope :=
  ⟨"session-1", .session, 5, none, .foreground, Bytes.ofString "session-1"⟩

/-- The key of its checkpoint. -/
def sessionKey : Key := ⟨5, .session, "session-1", by decide⟩

/-- The crash takes the place of the log, and the checkpoint is gone. -/
theorem crash_durable_of_cramped :
    let after := (cramped.endWithCrash Puppet.host "boom").1.service
    (∃ p, (Queue.ofStore after.queue.store).load.1.get? .sessions "d" = some p ∧
      p.payload = Bytes.ofString "session-1|crash(boom)|5") ∧
      cramped.service.snapshots.stored.1 = [sessionKey] ∧
      ∀ content, after.snapshots.place.openFile sessionKey.name ≠ .ok (.file content) := by
  let k : Key := ⟨5, .session, "d", by decide⟩
  have takes : cramped.service.queue.store.Takes k :=
    ⟨by decide +kernel, by decide +kernel, by decide +kernel⟩
  have unheard : cramped.service.queue.store.Unheard k.id :=
    ⟨by decide +kernel, by decide +kernel⟩
  have completed : (cramped.endWithCrash Puppet.host "boom").2 = .completed := by decide +kernel
  have running : cramped.session.active = some firstSession := by decide +kernel
  have keyed : Key.make cramped.service.clock firstSession.kind
      (cramped.service.idOf cramped.service.made) = .ok k := by decide +kernel
  obtain ⟨final, p, built, named, endpoint, payload, -, loads, gone, -⟩ :=
    crash_durable Puppet.host_faithful running keyed takes (by decide +kernel) unheard completed
  have made : (Puppet.host.buildFinal ⟨firstSession, cramped.service.clock, .crash "boom"⟩
      cramped.host).1 = .value { firstSession with
        ended := some 5, body := Bytes.ofString "session-1|crash(boom)|5" } := by
    decide +kernel
  cases made.symm.trans built
  have endpoint : p.endpoint = .sessions := endpoint
  have id : "d" = p.id := (Pending.key?_eq_some named).2.2
  rw [endpoint, ← id] at loads
  exact ⟨⟨p, loads, payload⟩, by decide +kernel, gone sessionKey (by decide)⟩

end Core

end Outbox
