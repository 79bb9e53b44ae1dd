import Outbox.Proofs.Restart
import Outbox.Proofs.Snapshots

/-! # What a process leaves behind

Both stores of a process outlive it. What its queue saved are files of deliveries, and what it kept
of its envelopes are files of snapshots. The operations of the queue and the moves of the service
leave nothing else, and a new queue that loads such files has exactly the deliveries in them, and
leaves the files as they are.
-/

namespace Outbox

open Storage (Key Store Place)

/-- The file of a snapshot. -/
def Envelope.file? (e : Envelope) : Option (String × Storage.Node) := e.key?.map (·.file e.encode)

/-- The files of distinct keys are those of a store. -/
theorem Storage.OwnFiles.of_keys {α : Type} {key? : α → Option Key} {as : List α}
    (encode : α → Bytes) (distinct : (as.filterMap key?).Nodup)
    (fit : ∀ k ∈ as.filterMap key?, Storage.fits k.name = true) :
    Storage.OwnFiles (as.filterMap fun a => (key? a).map (·.file (encode a))) where
  distinct := by
    have names : (as.filterMap fun a => (key? a).map (·.file (encode a))).map (·.1) =
        (as.filterMap key?).map Key.name := by
      rw [List.map_filterMap, List.map_filterMap]
      refine List.filterMap_congr fun a _ => ?_
      cases key? a <;> rfl
    rw [names]
    exact distinct.map Storage.Key.name_injective
  own f member := by
    obtain ⟨a, inside, shape⟩ := List.mem_filterMap.mp member
    obtain ⟨k, keyed, rfl⟩ := Option.map_eq_some_iff.mp shape
    exact ⟨k, encode a, fit k (List.mem_filterMap.mpr ⟨a, inside, keyed⟩), rfl⟩

namespace Storage.Store

variable {s : Store} {k : Key}

/-- The envelopes whose snapshots the files of a store hold. -/
def envelopes (s : Store) : List Envelope :=
  s.place.entries.filterMap fun f =>
    match f.2.payload? with
    | .ok b => Envelope.decode? b
    | .error _ => none

/-- The store has nothing but files of deliveries, whose ids are distinct. -/
structure Queued (s : Store) : Prop where
  own : s.Own
  files : ∀ f ∈ s.place.entries, ∃ p : Pending, p.file? = some f
  ids : (s.deliveries.map (·.id)).Nodup

/-- The store has nothing but files of snapshots. -/
structure Shelved (s : Store) : Prop where
  own : s.Own
  files : ∀ f ∈ s.place.entries, ∃ e : Envelope, e.file? = some f

theorem has_of_mem (own : s.Own) {b : Bytes} (fit : fits k.name = true)
    (there : k.file b ∈ s.place.entries) : s.Has k b :=
  Place.openFile_eq_ok_iff.mpr
    ⟨fit, (Place.entry?_eq_some_iff own.files.distinct).mpr there⟩

theorem Has.loadBytes {b : Bytes} (has : s.Has k b) : s.loadBytes k = ([], .ok (some b)) := by
  have opened : s.place.openFile k.name = .ok (.file (.gzip b)) := has
  simp [Store.loadBytes, load, opened, Node.payload?, Content.payload?]

theorem fits_of_mem (own : s.Own) {b : Bytes} (there : k.file b ∈ s.place.entries) :
    fits k.name = true := by
  obtain ⟨l, payload, fit, same⟩ := own.files.own _ there
  have name : k.name = l.name := (Prod.mk.inj same).1
  exact name ▸ fit

/-! ## The files of a queue -/

/-- A delivery of the files has a file of its own. -/
theorem Queued.mem_deliveries (queued : s.Queued) {p : Pending} :
    p ∈ s.deliveries ↔ ∃ f ∈ s.place.entries, p.file? = some f := by
  rw [deliveries, List.mem_filterMap]
  have read {x : Pending} {f : String × Node} (shape : x.file? = some f) :
      (match f.2.payload? with
        | .ok b => Pending.decode? b
        | .error _ => none) = some x := by
    obtain ⟨k, _, rfl⟩ := Option.map_eq_some_iff.mp shape
    exact Pending.decode?_encode x
  constructor
  · rintro ⟨f, present, found⟩
    obtain ⟨x, shape⟩ := queued.files f present
    have same : x = p := Option.some.inj ((read shape).symm.trans found)
    exact ⟨f, present, same ▸ shape⟩
  · rintro ⟨f, present, shape⟩
    exact ⟨f, present, read shape⟩

theorem Queued.admissible (queued : s.Queued) : Admissible s.deliveries where
  agree a member b member' same :=
    congrArg Pending.origin (List.inj_on_of_nodup_map queued.ids member member' same)
  keyed a member := by
    obtain ⟨f, present, shape⟩ := queued.mem_deliveries.mp member
    obtain ⟨k, keyed, rfl⟩ := Option.map_eq_some_iff.mp shape
    exact ⟨k, keyed, fits_of_mem queued.own present⟩

/-- Deliveries with ids of their own that can be stored make such a store, and it holds them. -/
theorem queued_of_deliveries {ds : List Pending} (ids : (ds.map (·.id)).Nodup)
    (keyed : ∀ p ∈ ds, ∃ k, p.key? = some k ∧ fits k.name = true) (max : Nat) :
    Queued ⟨.folder (ds.filterMap Pending.file?), max⟩ ∧
      deliveries ⟨.folder (ds.filterMap Pending.file?), max⟩ = ds := by
  have held : deliveries ⟨.folder (ds.filterMap Pending.file?), max⟩ = ds := by
    rw [deliveries, Place.entries, List.filterMap_filterMap]
    refine (List.filterMap_congr fun p member => ?_).trans List.filterMap_some
    obtain ⟨k, named, _⟩ := keyed p member
    rw [Pending.file?, named]
    exact Pending.decode?_encode p
  have distinct : (ds.filterMap Pending.key?).Nodup := by
    refine List.pairwise_filterMap.mpr ((List.pairwise_map.mp ids).imp ?_)
    intro a b differ k named l named' same
    have id := (Pending.key?_eq_some named).2.2
    rw [same] at id
    exact differ (id.symm.trans (Pending.key?_eq_some named').2.2)
  refine ⟨⟨⟨by simp, .of_keys Pending.encode distinct fun k member => ?_⟩, fun f member => ?_,
    by rwa [held]⟩, held⟩
  · obtain ⟨p, inside, named⟩ := List.mem_filterMap.mp member
    obtain ⟨l, named', fit⟩ := keyed p inside
    exact Option.some.inj (named'.symm.trans named) ▸ fit
  · obtain ⟨p, _, shape⟩ := List.mem_filterMap.mp member
    exact ⟨p, shape⟩

/-! ## The files of the service -/

/-- Envelopes with keys of their own make a store of snapshots, and it holds them. -/
theorem shelved_of_envelopes {es : List Envelope} (distinct : (es.filterMap Envelope.key?).Nodup)
    (keyed : ∀ e ∈ es, ∃ k, e.key? = some k ∧ fits k.name = true) (max : Nat) :
    Shelved ⟨.folder (es.filterMap Envelope.file?), max⟩ ∧
      envelopes ⟨.folder (es.filterMap Envelope.file?), max⟩ = es := by
  refine ⟨⟨⟨by simp, .of_keys Envelope.encode distinct fun k member => ?_⟩, fun f member => ?_⟩, ?_⟩
  · obtain ⟨e, inside, named⟩ := List.mem_filterMap.mp member
    obtain ⟨l, named', fit⟩ := keyed e inside
    exact Option.some.inj (named'.symm.trans named) ▸ fit
  · obtain ⟨e, _, shape⟩ := List.mem_filterMap.mp member
    exact ⟨e, shape⟩
  · rw [envelopes, Place.entries, List.filterMap_filterMap]
    refine (List.filterMap_congr fun e member => ?_).trans List.filterMap_some
    obtain ⟨k, named, _⟩ := keyed e member
    rw [Envelope.file?, named]
    exact Envelope.decode?_encode e

theorem Shelved.delete (shelved : s.Shelved) (k : Key) : (s.delete k).1.Shelved where
  own := by
    by_cases fit : fits k.name = true
    · exact (delete_own shelved.own fit).2.own
    · have refused : (s.delete k).1.place.entries = s.place.entries := by
        obtain ⟨place, max⟩ := s
        cases place <;> simp [Store.delete, Place.removeFile, fit]
      exact ⟨delete_open shelved.own.open_ k, refused ▸ shelved.own.files⟩
  files f present := shelved.files f (delete_entries s k present)

theorem Shelved.deleteAll (shelved : s.Shelved) (ks : List Key) : (s.deleteAll ks).1.Shelved := by
  induction ks generalizing s with
  | nil => exact shelved
  | cons k ks ih => exact ih (shelved.delete k)

theorem Shelved.putBytes (shelved : s.Shelved) {e : Envelope} (keyed : e.key? = some k) :
    (s.putBytes k e.encode).1.Shelved := by
  rcases s.putBytes_eq k e.encode with ⟨fit, _⟩ | ⟨_, same, _⟩
  · obtain ⟨pruned, _, _, became⟩ := putBytes_own shelved.own fit e.encode
    refine ⟨became.own, fun f present => ?_⟩
    rcases ((became.mem f).mp present).1 with ⟨old, _⟩ | rfl
    · exact shelved.files f old
    · exact ⟨e, by rw [Envelope.file?, keyed, Option.map_some]⟩
  · refine ⟨⟨putBytes_open shelved.own.open_ k e.encode, ?_⟩, fun f present => ?_⟩
    · rw [same]
      exact shelved.own.files
    · exact shelved.files f (same ▸ present)

end Storage.Store

namespace Service

variable {s : Service}

/-- The service puts nothing but snapshots in their store. -/
theorem step_shelved (shelved : s.snapshots.Shelved) (m : Move) : (s.step m).snapshots.Shelved := by
  have shelf := step_shelves s m
  generalize (s.step m).snapshots = store at shelf
  cases shelf with
  | still => exact shelved
  | withdraws | discards => exact shelved.delete _
  | replaces _ keyed | sketches _ keyed => exact shelved.putBytes keyed
  | retracts _ keyed => exact (shelved.putBytes keyed).delete _
  | clears ks => exact shelved.deleteAll ks

/-- What is in the store of snapshots after any moves are files of snapshots. -/
theorem run_shelved (shelved : s.snapshots.Shelved) (ms : List Move) :
    (s.run ms).snapshots.Shelved := by
  induction ms generalizing s with
  | nil => exact shelved
  | cons m ms ih => exact ih (step_shelved shelved m)

end Service

namespace Queue

variable {q : Queue} {store : Store} {ds : List Pending}

/-- The queue with these deliveries in memory, too. -/
def rememberAll (q : Queue) (ds : List Pending) : Queue := ds.foldl remember q

theorem rememberAll_store (q : Queue) (ds : List Pending) : (q.rememberAll ds).store = q.store := by
  induction ds generalizing q with
  | nil => rfl
  | cons d ds ih => exact ih (q.remember d)

/-- Deliveries with ids of their own are all held. -/
theorem rememberAll_holds (tidy : q.Tidy) (sorted : ∀ e, Sorted (q.pending e))
    (ids : (ds.map (·.id)).Nodup) (new : ∀ x, q.Holds x → ∀ d ∈ ds, x.id ≠ d.id) :
    (q.rememberAll ds).Tidy ∧ (∀ e, Sorted ((q.rememberAll ds).pending e)) ∧
      ∀ x, (q.rememberAll ds).Holds x ↔ q.Holds x ∨ x ∈ ds := by
  induction ds generalizing q with
  | nil => exact ⟨tidy, sorted, by simp [rememberAll]⟩
  | cons d ds ih =>
    obtain ⟨fresh, ids⟩ := List.nodup_cons.mp ids
    have apart (x : Pending) (held : q.Holds x) : x.id ≠ d.id := new x held d (by simp)
    have holds (x : Pending) : (q.remember d).Holds x ↔ x = d ∨ q.Holds x := by
      rw [holds_remember]
      have other := apart x
      tauto
    obtain ⟨tidy', sorted', holds'⟩ := ih (tidy.remember d)
      (remember_sorted sorted (fun x held _ same => absurd same (apart x held)) tidy) ids
      (fun x held y member same => by
        rcases (holds x).mp held with rfl | before
        · exact fresh (List.mem_map.mpr ⟨y, member, same.symm⟩)
        · exact new x before y (by simp [member]) same)
    refine ⟨tidy', sorted', fun x => ?_⟩
    rw [show q.rememberAll (d :: ds) = (q.remember d).rememberAll ds from rfl, holds', holds]
    simp only [List.mem_cons]
    tauto

/-- A queue that could have left the files of a store. -/
def leaving (store : Store) : Queue := (ofStore store).rememberAll store.deliveries

theorem leaving_store (store : Store) : (leaving store).store = store := rememberAll_store _ _

theorem holds_leaving_iff (queued : store.Queued) (x : Pending) :
    (leaving store).Holds x ↔ x ∈ store.deliveries := by
  obtain ⟨_, _, holds⟩ := rememberAll_holds (ofStore_tidy store)
    (fun e => by simp [Sorted, pending, ofStore]) queued.ids
    (fun x held => by simp [Holds, pending, ofStore] at held)
  rw [leaving, holds]
  simp [Holds, pending, ofStore]

theorem leaving_synced (queued : store.Queued) : Synced store.deliveries (leaving store) := by
  obtain ⟨tidy, sorted, _⟩ := rememberAll_holds (ofStore_tidy store)
    (fun e => by simp [Sorted, pending, ofStore]) queued.ids
    (fun x held => by simp [Holds, pending, ofStore] at held)
  have own : (leaving store).store.Own := by
    rw [leaving_store]
    exact queued.own
  refine ⟨own, tidy, sorted, fun p held => ?_, fun f => ?_⟩
  · exact ⟨p, (holds_leaving_iff queued p).mp held, rfl⟩
  · rw [leaving_store]
    simp only [holds_leaving_iff queued, queued.mem_deliveries]
    constructor
    · intro present
      obtain ⟨p, shape⟩ := queued.files f present
      exact ⟨p, ⟨f, present, shape⟩, shape⟩
    · rintro ⟨p, ⟨g, present, shape⟩, shape'⟩
      exact Option.some.inj (shape.symm.trans shape') ▸ present

/-- What the operations of a queue leave are files of deliveries. -/
theorem Synced.queued (adm : Admissible ds) (synced : Synced ds q) : q.store.Queued where
  own := synced.own
  files f present := by
    obtain ⟨p, _, shape⟩ := (synced.mirrors.files f).mp present
    exact ⟨p, shape⟩
  ids := by
    refine List.pairwise_map.mpr (List.Pairwise.imp_of_mem ?_ synced.deliveries_nodup)
    intro a b member member' differ same
    have there := (synced.mem_deliveries adm).mp member
    have there' := (synced.mem_deliveries adm).mp member'
    have origin := (synced.mirrors.known a there).origin_eq adm (synced.mirrors.known b there') same
    exact differ (synced.tidy.eq_of_id there there' (Pending.endpoint_of_origin origin) same)

/-! ## Loading -/

theorem Synced.mono {ds' : List Pending} (synced : Synced ds q) (more : ds ⊆ ds') :
    Synced ds' q where
  own := synced.own
  tidy := synced.tidy
  sorted := synced.sorted
  mirrors :=
    ⟨fun p held => (synced.mirrors.known p held).imp fun _ ⟨member, same⟩ => ⟨more member, same⟩,
      synced.mirrors.files⟩

/-- Loading what can be read leaves the files alone. -/
theorem loadKeys_store {keys : List Key}
    (readable : ∀ k ∈ keys, ∃ p, find q.store k = ([], .pending p)) :
    (q.loadKeys keys).1.store = q.store := by
  induction keys generalizing q with
  | nil => rfl
  | cons k keys ih =>
    obtain ⟨p, found⟩ := readable k (by simp)
    have later : ∀ l ∈ keys, ∃ p, find q.store l = ([], .pending p) :=
      fun l member => readable l (by simp [member])
    simp only [loadKeys, found]
    split <;> exact ih later

/-- A new queue over the files of a queue is a queue that could have left them. -/
theorem Synced.reload (adm : Admissible ds) (synced : Synced ds q) :
    (ofStore q.store).load.1.store = q.store ∧ Synced ds (ofStore q.store).load.1 ∧
      ∀ x, (ofStore q.store).load.1.Holds x ↔ q.Holds x := by
  obtain ⟨q', loaded, tidy, sorted, holds⟩ := synced.load adm
  have store : (ofStore q.store).load.1.store = q.store := by
    refine loadKeys_store (q := ofStore q.store) fun k member => ?_
    obtain ⟨p, there, keyed⟩ := (synced.mem_stored k).mp member
    exact ⟨p, synced.find_eq adm there keyed⟩
  rw [loaded] at store ⊢
  refine ⟨store, ⟨store ▸ synced.own, tidy, sorted, synced.mirrors.congr holds fun f => ?_⟩, holds⟩
  rw [store]

end Queue

end Outbox
