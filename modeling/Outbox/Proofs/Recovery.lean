import Outbox.Core
import Outbox.Proofs.Crashes
import Outbox.Proofs.Leftovers
import Outbox.Rehearsal.Puppet

/-! # Recovery

A new process queues what earlier ones left: the deliveries as they are, and a new one for each
snapshot, which is deleted then. If nothing fails and the quota has room, the queue has exactly
these deliveries, in memory and on disk, and there are no snapshots any more. So the next process
finds the same queue, and so do all after it.
-/

namespace Outbox

open Storage (Key Store Place fits)

/-- The deliveries that are made of these envelopes, with the ids from a number on. -/
def revived (idOf : Nat → String) (made : Nat) (clock : Millis) (es : List Envelope) :
    List Pending :=
  (es.zipIdx made).map fun (e, n) =>
    .make (idOf n) (.wrap n Word64.bounds) e.endpoint e.body clock

/-- These ids are distinct, none of the deliveries has one of them, and at this time each can stand
in the name of a file. -/
structure NewIds (ds : List Pending) (clock : Millis) (ids : List String) : Prop where
  distinct : (ds.map (·.id) ++ ids).Nodup
  keyed : ∀ id ∈ ids, ∀ kind, ∃ k, Key.make clock kind id = .ok k ∧ fits k.name = true

section

variable {idOf : Nat → String} {made : Nat} {clock : Millis} {es : List Envelope}

theorem revived_cons (e : Envelope) (es : List Envelope) : revived idOf made clock (e :: es) =
    .make (idOf made) (.wrap made Word64.bounds) e.endpoint e.body clock ::
      revived idOf (made + 1) clock es := by
  simp [revived, List.zipIdx_cons]

theorem length_revived : (revived idOf made clock es).length = es.length := by
  simp [revived]

theorem ids_revived : (revived idOf made clock es).map (·.id) =
    (List.range' made es.length).map idOf := by
  induction es generalizing made with
  | nil => rfl
  | cons e es ih =>
    rw [revived_cons, List.map_cons, ih, List.length_cons, List.range'_succ, List.map_cons]
    rfl

theorem NewIds.keyed_revived {ds : List Pending}
    (new : NewIds ds clock ((List.range' made es.length).map idOf)) {p : Pending}
    (member : p ∈ revived idOf made clock es) :
    ∃ k, p.key? = some k ∧ fits k.name = true := by
  have listed : p.id ∈ (List.range' made es.length).map idOf :=
    ids_revived ▸ List.mem_map_of_mem member
  obtain ⟨⟨e, n⟩, _, rfl⟩ := List.mem_map.mp member
  obtain ⟨k, keyed, fit⟩ := new.keyed _ listed e.kind
  exact ⟨k, Pending.key?_make keyed, fit⟩

end

namespace Storage.Store

variable {s : Store} {k : Key}

/-- A store below its quota deletes nothing when it stores one more payload. -/
theorem BelowQuota.pruned (below : s.BelowQuota) (k : Key) (b : Bytes) : s.pruned k b = [] := by
  rcases s.putBytes_eq k b with ⟨_, reports, result⟩ | ⟨⟨e, failed⟩, _⟩
  · simp only [Store.pruned, result, below.enforce_written]
  · simp only [Store.pruned, failed]

/-- Nothing is left when all that is listed was deleted. -/
theorem deleteAll_stored (own : s.Own) : (s.deleteAll s.stored.1).1.place.entries = [] := by
  obtain ⟨_, became⟩ := deleteAll_own own fun k member => fits_of_mem_stored own member
  refine List.eq_nil_iff_forall_not_mem.mpr fun f there => ?_
  obtain ⟨present, gone⟩ := (became.mem f).mp there
  obtain ⟨k, b, _, rfl⟩ := own.files.own f present
  exact gone k ((mem_stored own k).mpr ⟨b, present⟩) rfl

end Storage.Store

/-! ## New deliveries in the queue -/

namespace Queue

variable {q : Queue} {ds done ps : List Pending} {p : Pending}

theorem Synced.maxEntries_save (adm : Admissible ds) (synced : Synced ds q) (member : p ∈ ds) :
    (q.save p).1.store.maxEntries = q.store.maxEntries := by
  obtain ⟨k, keyed, fit⟩ := adm.keyed p member
  obtain ⟨_, _, _, became⟩ := Store.putBytes_own synced.own fit p.encode
  rw [(save_file keyed).1, became.maxEntries]

/-- A queue below its quota has one more delivery then. -/
theorem Synced.save_new (adm : Admissible ds) (synced : Synced ds q) (member : p ∈ ds)
    (new : ∀ x, q.Holds x → x.id ≠ p.id) (below : q.store.BelowQuota) :
    (q.save p).1.held.Perm (q.held ++ [p]) := by
  have saved := synced.save adm ⟨p, member, rfl⟩
  have pruned : q.pruned p = [] := by
    unfold Queue.pruned
    cases p.key? with
    | none => rfl
    | some k => exact below.pruned k p.encode
  have fresh : p ∉ q.held := fun there => new p (synced.tidy.mem_held.mp there) rfl
  have distinct : (q.held ++ [p]).Nodup := by
    refine List.nodup_append.mpr ⟨synced.tidy.held_nodup, by simp, fun x there y last => ?_⟩
    rw [List.mem_singleton.mp last]
    exact fun same => fresh (same ▸ there)
  refine (List.perm_ext_iff_of_nodup saved.tidy.held_nodup distinct).mpr fun x => ?_
  rw [saved.tidy.mem_held, holds_save_iff, pruned, List.mem_append, synced.tidy.mem_held,
    List.mem_singleton]
  have other := new x
  constructor
  · rintro ⟨rfl | ⟨held, _⟩, _⟩
    · exact .inr rfl
    · exact .inl held
  · rintro (held | rfl)
    · exact ⟨.inr ⟨held, fun same => other held same.2⟩, by simp⟩
    · exact ⟨.inl rfl, by simp⟩

/-- New deliveries are added to those that are held, if the quota has room for all. -/
theorem Synced.saveAll (adm : Admissible ds) (synced : Synced ds q) (held : q.held.Perm done)
    (members : ps ⊆ ds) (distinct : ((done ++ ps).map (·.id)).Nodup)
    (room : (done ++ ps).length ≤ q.store.maxEntries) :
    Synced ds (q.saveAll ps) ∧ (q.saveAll ps).held.Perm (done ++ ps) := by
  induction ps generalizing q done with
  | nil => exact ⟨synced, by simpa [Queue.saveAll] using held⟩
  | cons p ps ih =>
    have member : p ∈ ds := members (by simp)
    have new (x : Pending) (there : q.Holds x) : x.id ≠ p.id := by
      have early : x ∈ done := held.mem_iff.mp (synced.tidy.mem_held.mpr there)
      rw [List.map_append] at distinct
      exact (List.nodup_append.mp distinct).2.2 _ (List.mem_map_of_mem early) _ (by simp)
    -- `done` is all that the queue holds by now, so its length is that of the listing
    have below : q.store.BelowQuota := by
      rw [Storage.Store.BelowQuota, synced.length_stored adm, ← length_held, held.length_eq]
      simp only [List.length_append, List.length_cons] at room
      omega
    have next := synced.save_new adm member new below
    have whole : done ++ p :: ps = done ++ [p] ++ ps := by simp
    rw [whole] at distinct room ⊢
    exact ih (synced.save adm ⟨p, member, rfl⟩) (next.trans (held.append_right [p]))
      (fun x later => members (by simp [later])) distinct
      ((synced.maxEntries_save adm member).symm ▸ room)

end Queue

/-! ## The snapshots that are put in the queue -/

namespace Service

variable {s : Service} {k : Key} {e : Envelope}

/-- A new delivery can be stored at this time if its id can stand in the name of a file. -/
theorem enqueue_isOk (own : s.queue.store.Own)
    (keyed : Key.make s.clock e.kind (s.idOf s.made) = .ok k) (fit : fits k.name = true) :
    (s.enqueue e.endpoint e.body).2.2 = true ∧
      (s.enqueue e.endpoint e.body).1.queue.store.Own := by
  obtain ⟨_, store, durable⟩ := enqueue_file keyed
  obtain ⟨pruned, done, _, became⟩ :=
    Store.putBytes_own own fit (s.enqueue e.endpoint e.body).2.1.encode
  refine ⟨?_, store ▸ became.own⟩
  rw [durable, done]
  rfl

/-- A snapshot is put in the queue and deleted. -/
theorem requeue_one (open_ : s.isFinalized k.id = false) (has : s.snapshots.Has k e.encode)
    (durable : (s.enqueue e.endpoint e.body).2.2 = true) :
    (s.requeue [k]).1 =
      { (s.enqueue e.endpoint e.body).1 with
        snapshots := (s.snapshots.delete k).1
        journal := (s.requeue [k]).1.journal } := by
  simp only [requeue, open_, Bool.false_eq_true, if_false, has.loadBytes, Envelope.decode?_encode]
  have silent : s.report [] = s := rfl
  rw [silent, durable]
  rfl

theorem snapshot?_of_has (open_ : s.isFinalized k.id = false)
    (has : s.snapshots.Has k e.encode) : s.snapshot? k = some e := by
  simp only [snapshot?, open_, Bool.false_eq_true, if_false, has.loadBytes,
    Envelope.decode?_encode]

/-- All snapshots that are looked for are put in the queue and deleted, one after the other. -/
theorem requeue_all {keys : List Key} (distinct : keys.Nodup) (fresh : s.finalized = [])
    (shelf : ∀ k ∈ keys, ∃ e : Envelope, s.snapshots.Has k e.encode) (own : s.queue.store.Own)
    (keyed : ∀ id ∈ (List.range' s.made keys.length).map s.idOf, ∀ kind,
      ∃ k, Key.make s.clock kind id = .ok k ∧ fits k.name = true) :
    (s.requeue keys).1.snapshots = (s.snapshots.deleteAll keys).1 ∧
      s.requeued keys = revived s.idOf s.made s.clock (keys.filterMap s.snapshot?) := by
  induction keys generalizing s with
  | nil => exact ⟨rfl, rfl⟩
  | cons k keys ih =>
    obtain ⟨other, distinct⟩ := List.nodup_cons.mp distinct
    obtain ⟨e, has⟩ := shelf k (by simp)
    have open_ (l : Key) : s.isFinalized l.id = false := by simp [isFinalized, fresh]
    rw [List.length_cons, List.range'_succ, List.map_cons] at keyed
    obtain ⟨l, made, fit⟩ := keyed (s.idOf s.made) (by simp) e.kind
    obtain ⟨durable, own'⟩ := enqueue_isOk own made fit
    -- the rest goes on from a service that has all other snapshots still
    have one := requeue_one (open_ k) has durable
    have first : (k :: keys).filterMap s.snapshot? = e :: keys.filterMap s.snapshot? := by
      rw [List.filterMap_cons, snapshot?_of_has (open_ k) has]
    rw [← List.singleton_append, requeue_append, List.singleton_append, requeued, first,
      revived_cons, snapshot?_of_has (open_ k) has]
    generalize (s.requeue [k]).1 = t at one
    have shelf' (l : Key) (member : l ∈ keys) : ∃ e : Envelope,
        s.snapshots.Has l e.encode ∧ t.snapshots.Has l e.encode := by
      obtain ⟨e', has'⟩ := shelf l (by simp [member])
      refine ⟨e', has', ?_⟩
      rw [one]
      exact has'.delete fun same => other (same ▸ member)
    have same : keys.filterMap t.snapshot? = keys.filterMap s.snapshot? := by
      refine List.filterMap_congr fun l member => ?_
      obtain ⟨e', before, after⟩ := shelf' l member
      have closed : t.isFinalized l.id = false := by
        rw [one]
        exact open_ l
      rw [snapshot?_of_has (open_ l) before, snapshot?_of_has closed after]
    obtain ⟨shelved, queued⟩ := ih (s := t) distinct (by rw [one]; exact fresh)
      (fun l member => (shelf' l member).imp fun _ both => both.2) (by rw [one]; exact own')
      (by rw [one]; exact fun id member => keyed id (List.mem_cons_of_mem _ member))
    refine ⟨?_, ?_⟩
    · rw [shelved, one]
      rfl
    · rw [queued, same, one]
      rfl

end Service

namespace Storage.Store

variable {s : Store}

/-- Whoever reads the snapshots key by key reads all of them. -/
theorem Shelved.envelopes_perm (shelved : s.Shelved) {f : Key → Option Envelope}
    (reads : ∀ k (e : Envelope), s.Has k e.encode → f k = some e) :
    (s.stored.1.filterMap f).Perm s.envelopes := by
  have listed := s.stored_perm.filterMap f
  rw [keys, List.filterMap_filterMap] at listed
  refine listed.trans (List.Perm.of_eq (List.filterMap_congr fun g present => ?_))
  obtain ⟨e, shape⟩ := shelved.files g present
  obtain ⟨k, _, rfl⟩ := Option.map_eq_some_iff.mp shape
  have has := has_of_mem shelved.own (fits_of_mem shelved.own present) present
  simp [Key.file, keyOf?_name, reads k e has, Node.payload?, Content.payload?,
    Envelope.decode?_encode]

theorem Shelved.has_of_stored (shelved : s.Shelved) {k : Key} (member : k ∈ s.stored.1) :
    ∃ e : Envelope, s.Has k e.encode := by
  obtain ⟨b, present⟩ := (mem_stored shelved.own k).mp member
  have has := has_of_mem shelved.own (fits_of_mem shelved.own present) present
  obtain ⟨e, shape⟩ := shelved.files _ present
  obtain ⟨l, _, same⟩ := Option.map_eq_some_iff.mp shape
  obtain ⟨_, payload⟩ := Prod.mk.inj same
  cases payload
  exact ⟨e, has⟩

theorem stored_of_empty (own : s.Own) (empty : s.place.entries = []) : s.stored = ([], []) := by
  refine Prod.ext (List.eq_nil_iff_forall_not_mem.mpr fun k member => ?_) (stored_reports own)
  obtain ⟨b, present⟩ := (mem_stored own k).mp member
  rw [empty] at present
  cases present

end Storage.Store

/-! ## A new process -/

namespace Queue

variable {q : Queue} {ds : List Pending}

theorem Synced.withRoom (synced : Synced ds q) (max : Nat) :
    Synced ds { q with store := ⟨q.store.place, max⟩ } :=
  ⟨⟨synced.own.open_, synced.own.files⟩, ⟨synced.tidy.home, synced.tidy.ids⟩, synced.sorted,
    synced.mirrors.known, synced.mirrors.files⟩

end Queue

namespace Core

open Queue (Synced)

variable {σ : Type} {config : Config} {idOf : Nat → String} {made : Nat} {clock : Millis}
  {pending snapshots : Store}

/-- The files of a queue before and after it is loaded. -/
theorem load_queued (queued : pending.Queued) :
    (Queue.ofStore pending).load.1.store = pending ∧
      Synced pending.deliveries (Queue.ofStore pending).load.1 ∧
      (Queue.ofStore pending).load.1.held.Perm pending.deliveries := by
  have reloaded := (Queue.leaving_synced queued).reload queued.admissible
  rw [Queue.leaving_store] at reloaded
  obtain ⟨store, synced, _⟩ := reloaded
  refine ⟨store, synced, ?_⟩
  have perm := synced.perm queued.admissible
  rwa [store] at perm

/-- What was left is queued: the deliveries as they are, and the snapshots as new ones. -/
theorem recover_files (config : Config) (queued : pending.Queued) (shelved : snapshots.Shelved)
    (new : NewIds pending.deliveries clock
      ((List.range' made snapshots.envelopes.length).map idOf)) :
    ∃ es : List Envelope, es.Perm snapshots.envelopes ∧
      (recover (.start config idOf made clock pending snapshots)).queue =
        (Queue.ofStore pending).load.1.saveAll (revived idOf made clock es) ∧
      (recover (.start config idOf made clock pending snapshots)).snapshots =
        (snapshots.deleteAll snapshots.stored.1).1 := by
  let s := ((Service.start config idOf made clock pending snapshots).loadQueue).1.report
    snapshots.stored.2
  have recovers : recover (.start config idOf made clock pending snapshots) =
    (s.requeue snapshots.stored.1).1 := rfl
  have reads (k : Key) (e : Envelope) (has : snapshots.Has k e.encode) : s.snapshot? k = some e :=
    Service.snapshot?_of_has rfl has
  have perm := shelved.envelopes_perm reads
  have own : s.queue.store.Own := by
    rw [show s.queue = (Queue.ofStore pending).load.1 from rfl, (load_queued queued).1]
    exact queued.own
  have length : snapshots.stored.1.length = snapshots.envelopes.length := by
    rw [← perm.length_eq, List.filterMap_length_eq_length.mpr]
    intro k member
    obtain ⟨e, has⟩ := shelved.has_of_stored member
    simp [reads k e has]
  obtain ⟨cleared, requeued⟩ := Service.requeue_all (s := s) (Store.stored_nodup shelved.own) rfl
    (fun k member => shelved.has_of_stored member) own
    (fun id member => new.keyed id (length ▸ member))
  refine ⟨_, perm, ?_, recovers ▸ cleared⟩
  rw [recovers, (Service.requeue_files s _).queue, requeued]
  rfl

theorem recover_of_none (config : Config) (idOf : Nat → String) (made : Nat) (clock : Millis)
    (pending : Store) (none_ : snapshots.stored = ([], [])) :
    (recover (.start config idOf made clock pending snapshots)).queue =
        (Queue.ofStore pending).load.1 ∧
      (recover (.start config idOf made clock pending snapshots)).snapshots = snapshots := by
  have listed : ((Service.start config idOf made clock pending snapshots).loadQueue).1.snapshots =
    snapshots := rfl
  simp only [recover, Service.resurrect, listed, none_, Service.requeue]
  exact ⟨rfl, rfl⟩

theorem begin_sent (h : Host σ) (c : Config) (state : ProcessState) (time : Millis) (host : σ) :
    (Session.begin h c state time host).sent = none := by
  obtain ⟨closed, _, sent, running⟩ := (Session.transition_transits h c (.initial state) time
    (.initial state) host).closes
  cases closed with
  | none => exact sent
  | some x => cases (running x rfl).1

/-- Beginning the first envelope leaves the files to what was recovered. -/
theorem start_files (h : Host σ) (service : Service) (state : ProcessState) (host : σ) :
    (start h service state host).service.queue = (recover service).queue ∧
      (start h service state host).service.snapshots = (recover service).snapshots := by
  simp only [start, take]
  generalize recover service = recovered
  rw [begin_sent]
  obtain ⟨queue, snapshots, _⟩ := Service.spawn_frame (recovered.report
    (Session.begin h recovered.config state recovered.clock host).reports) .flush
  exact ⟨queue, snapshots⟩

end Core

/-- What a process is started with, apart from what is on disk. -/
structure Launch (σ : Type) where
  host : Host σ
  config : Config
  idOf : Nat → String
  made : Nat
  clock : Millis
  state : ProcessState
  memory : σ
  pendingRoom : Nat
  snapshotRoom : Nat

namespace Service

open Queue (Synced)

variable {σ : Type} {s : Service} {ds : List Pending}

/-- The service of a process that is started where this one left its files. -/
def relaunched (s : Service) (l : Launch σ) : Service :=
  (Core.start l.host
    (.start l.config l.idOf l.made l.clock ⟨s.queue.store.place, l.pendingRoom⟩
      ⟨s.snapshots.place, l.snapshotRoom⟩) l.state l.memory).service

/-- The service after one process after the other was started where the one before left its
files. -/
def relaunchedAll (s : Service) (ls : List (Launch σ)) : Service := ls.foldl relaunched s

/-- The files are those of the queue, and there are no snapshots. -/
structure Recovered (ds : List Pending) (s : Service) : Prop where
  synced : Synced ds s.queue
  own : s.snapshots.Own
  empty : s.snapshots.place.entries = []

/-- `t` has the files of `s`, and the same deliveries in memory. -/
structure Resumes (s t : Service) : Prop where
  pending : t.queue.store.place = s.queue.store.place
  snapshots : t.snapshots.place = s.snapshots.place
  holds : ∀ p, t.queue.Holds p ↔ s.queue.Holds p

theorem Recovered.relaunched (recovered : s.Recovered ds) (adm : Admissible ds) (l : Launch σ) :
    (s.relaunched l).Recovered ds ∧ Resumes s (s.relaunched l) := by
  obtain ⟨store, synced, holds⟩ := (recovered.synced.withRoom l.pendingRoom).reload adm
  have own : Store.Own ⟨s.snapshots.place, l.snapshotRoom⟩ :=
    ⟨recovered.own.open_, recovered.own.files⟩
  obtain ⟨queue, snapshots⟩ := Core.start_files l.host
    (.start l.config l.idOf l.made l.clock ⟨s.queue.store.place, l.pendingRoom⟩
      ⟨s.snapshots.place, l.snapshotRoom⟩) l.state l.memory
  obtain ⟨loaded, kept⟩ := Core.recover_of_none l.config l.idOf l.made l.clock
    ⟨s.queue.store.place, l.pendingRoom⟩ (Store.stored_of_empty own recovered.empty)
  have queue : (s.relaunched l).queue = _ := queue.trans loaded
  have snapshots : (s.relaunched l).snapshots = _ := snapshots.trans kept
  refine ⟨⟨queue ▸ synced, snapshots ▸ own, snapshots ▸ recovered.empty⟩, ?_, ?_, fun p => ?_⟩
  · rw [queue, store]
  · rw [snapshots]
  · rw [queue]
    exact holds p

/-- However often a process is started again, it takes over where the first one was. -/
theorem Recovered.relaunchedAll (recovered : s.Recovered ds) (adm : Admissible ds)
    (ls : List (Launch σ)) :
    (s.relaunchedAll ls).Recovered ds ∧ Resumes s (s.relaunchedAll ls) := by
  induction ls generalizing s with
  | nil => exact ⟨recovered, rfl, rfl, fun _ => Iff.rfl⟩
  | cons l ls ih =>
    obtain ⟨next, first⟩ := recovered.relaunched adm l
    obtain ⟨last, others⟩ := ih next
    exact ⟨last, others.pending.trans first.pending, others.snapshots.trans first.snapshots,
      fun p => (others.holds p).trans (first.holds p)⟩

end Service

namespace Core

variable {σ τ : Type} {config : Config} {idOf : Nat → String} {made : Nat} {clock : Millis}
  {pending snapshots : Store}

/-- The first process that finds the files has them in its queue, and the snapshots are gone. -/
theorem start_recovered (queued : pending.Queued) (shelved : snapshots.Shelved)
    (room : pending.deliveries.length + snapshots.envelopes.length ≤ pending.maxEntries)
    (new : NewIds pending.deliveries clock
      ((List.range' made snapshots.envelopes.length).map idOf))
    (h : Host σ) (config : Config) (state : ProcessState) (host : σ) :
    ∃ es : List Envelope, es.Perm snapshots.envelopes ∧
      let ds := pending.deliveries ++ revived idOf made clock es
      let s := (start h (.start config idOf made clock pending snapshots) state host).service
      Admissible ds ∧ s.Recovered ds ∧ s.queue.held.Perm ds := by
  obtain ⟨es, perm, saved, cleared⟩ := recover_files config queued shelved new
  obtain ⟨store, loaded, held⟩ := load_queued queued
  rw [← perm.length_eq] at room new
  have distinct : ((pending.deliveries ++ revived idOf made clock es).map (·.id)).Nodup := by
    rw [List.map_append, ids_revived]
    exact new.distinct
  have adm : Admissible (pending.deliveries ++ revived idOf made clock es) := by
    refine ⟨fun a there b there' same => ?_, fun p there => ?_⟩
    · exact congrArg Pending.origin (List.inj_on_of_nodup_map distinct there there' same)
    · exact (List.mem_append.mp there).elim (queued.admissible.keyed p) new.keyed_revived
  have fits_all : (pending.deliveries ++ revived idOf made clock es).length ≤
      (Queue.ofStore pending).load.1.store.maxEntries := by
    rwa [store, List.length_append, length_revived]
  obtain ⟨synced, all⟩ := (loaded.mono (List.subset_append_left _ _)).saveAll adm held
    (List.subset_append_right _ _) distinct fits_all
  have stored : ∀ k ∈ snapshots.stored.1, fits k.name = true :=
    fun k member => Store.fits_of_mem_stored shelved.own member
  obtain ⟨_, became⟩ := Store.deleteAll_own shelved.own stored
  obtain ⟨queue, kept⟩ := start_files h (.start config idOf made clock pending snapshots) state host
  rw [saved] at queue
  rw [cleared] at kept
  refine ⟨es, perm, adm, ⟨queue ▸ synced, kept ▸ became.own, ?_⟩, queue ▸ all⟩
  rw [kept, Store.deleteAll_stored shelved.own]

/-- A new process has exactly what earlier ones left, in memory and on disk: each delivery as it
was, and one new delivery for each snapshot, with its body, to the endpoint of its kind. There are
no snapshots any more. Processes that are started after it find the same deliveries and change
nothing on disk. -/
theorem start_recovers (queued : pending.Queued) (shelved : snapshots.Shelved)
    (room : pending.deliveries.length + snapshots.envelopes.length ≤ pending.maxEntries)
    (new : NewIds pending.deliveries clock
      ((List.range' made snapshots.envelopes.length).map idOf))
    (h : Host σ) (config : Config) (state : ProcessState) (host : σ) (ls : List (Launch τ)) :
    let s := (start h (.start config idOf made clock pending snapshots) state host).service
    let t := s.relaunchedAll ls
    (∃ es : List Envelope, es.Perm snapshots.envelopes ∧
      s.queue.held.Perm (pending.deliveries ++ revived idOf made clock es) ∧
      s.queue.store.deliveries.Perm (pending.deliveries ++ revived idOf made clock es)) ∧
    s.queue.store.Queued ∧ s.snapshots.place.entries = [] ∧
    t.queue.store.place = s.queue.store.place ∧ t.snapshots.place = s.snapshots.place ∧
    t.queue.held.Perm s.queue.held ∧
    ((s.queue.held.map fun p => (p.created, p.sequence)).Nodup →
      ∀ e, t.queue.pending e = s.queue.pending e) := by
  intro s t
  obtain ⟨es, perm, adm, recovered, held⟩ := start_recovered queued shelved room new h config state
    host
  obtain ⟨again, resumes⟩ : t.Recovered _ ∧ Service.Resumes s t := recovered.relaunchedAll adm ls
  have same : t.queue.held.Perm s.queue.held := by
    refine (List.perm_ext_iff_of_nodup again.synced.tidy.held_nodup
      recovered.synced.tidy.held_nodup).mpr fun p => ?_
    rw [again.synced.tidy.mem_held, recovered.synced.tidy.mem_held, resumes.holds]
  refine ⟨⟨es, perm, held, (recovered.synced.perm adm).symm.trans held⟩,
    recovered.synced.queued adm, recovered.empty, resumes.pending, resumes.snapshots, same, ?_⟩
  intro distinct e
  refine Queue.pending_eq recovered.synced.tidy again.synced.tidy recovered.synced.sorted
    again.synced.sorted resumes.holds (distinct.sublist ?_)
  have part : (s.queue.pending e).Sublist s.queue.held :=
    List.sublist_flatten_of_mem (List.mem_map.mpr ⟨e, e.mem_all, rfl⟩)
  exact part.map _

/-- A log that was tried once without success, and a crash that was not sent. -/
def unsent : List Pending :=
  [(Pending.make "log" 0 .logs [1] 5).failed 7, .make "crash" 1 .crashes [2] 6]

/-- Checkpoints of two envelopes that had not ended. -/
def unended : List Envelope :=
  [⟨"session", .session, 1, some 4, .foreground, [3]⟩,
    ⟨"network", .network, 2, some 4, .background, [4]⟩]

/-- Another start, in the background. -/
def nextLaunch : Launch Puppet :=
  ⟨Puppet.host, .default, Service.countedIds, 0, 90, .background, .fresh, 10, 10⟩

/-- The two deliveries and the two snapshots are four deliveries from then on. -/
theorem start_recovers_of_four :
    let pending : Store := ⟨.folder (unsent.filterMap Pending.file?), 10⟩
    let snapshots : Store := ⟨.folder (unended.filterMap Envelope.file?), 10⟩
    let s := (start Puppet.host (.start .default Service.countedIds 0 50 pending snapshots)
      .foreground .fresh).service
    s.snapshots.place.entries = [] ∧ s.queue.size = 4 ∧
      (s.relaunchedAll [nextLaunch, nextLaunch]).queue.size = 4 := by
  intro pending snapshots s
  have unsent_keyed : ∀ p ∈ unsent, ∃ k, p.key? = some k ∧ fits k.name = true := by
    refine List.forall_mem_cons.mpr ⟨?_, List.forall_mem_singleton.mpr ?_⟩
    · exact ⟨⟨5, .log, "log", by decide⟩, by decide, by decide +kernel⟩
    · exact ⟨⟨6, .crash, "crash", by decide⟩, by decide, by decide +kernel⟩
  have unended_keyed : ∀ e ∈ unended, ∃ k, e.key? = some k ∧ fits k.name = true := by
    refine List.forall_mem_cons.mpr ⟨?_, List.forall_mem_singleton.mpr ?_⟩
    · exact ⟨⟨1, .session, "session", by decide⟩, by decide, by decide +kernel⟩
    · exact ⟨⟨2, .network, "network", by decide⟩, by decide, by decide +kernel⟩
  obtain ⟨queued, deliveries⟩ := Store.queued_of_deliveries (by decide) unsent_keyed 10
  obtain ⟨shelved, envelopes⟩ := Store.shelved_of_envelopes (by decide) unended_keyed 10
  have new : NewIds unsent 50 ((List.range' 0 unended.length).map Service.countedIds) := by
    have ids : (List.range' 0 unended.length).map Service.countedIds = ["d", "dd"] := by
      decide +kernel
    rw [ids]
    refine ⟨by decide +kernel, List.forall_mem_cons.mpr ⟨fun kind => ?_,
      List.forall_mem_singleton.mpr fun kind => ?_⟩⟩
    · exact ⟨⟨50, kind, "d", by decide⟩, rfl, by cases kind <;> decide +kernel⟩
    · exact ⟨⟨50, kind, "dd", by decide⟩, rfl, by cases kind <;> decide +kernel⟩
  obtain ⟨⟨es, perm, held, _⟩, _, empty, _, _, same, _⟩ := start_recovers queued shelved
    (by rw [deliveries, envelopes]; decide) (by rw [deliveries, envelopes]; exact new) Puppet.host
    .default .foreground .fresh [nextLaunch, nextLaunch]
  have four : s.queue.size = 4 := by
    rw [deliveries] at held
    rw [envelopes] at perm
    rw [← Queue.length_held, held.length_eq, List.length_append, length_revived, perm.length_eq]
    rfl
  refine ⟨empty, four, ?_⟩
  rw [← Queue.length_held, same.length_eq]
  exact four

end Core

end Outbox
