import Outbox.Proofs.QueueContents
import Outbox.Proofs.Records
import Outbox.Proofs.StoreContents

/-! # Restarts

The store of a queue is its memory for the next process. Every operation changes the deliveries in
memory and the files in the same way, so that at any time the files are the deliveries that are
held, and a queue that is loaded from them is the queue that was lost.
-/

namespace Outbox

open Storage (Key Store Node fits)

/-- A call that changes a queue. -/
inductive QueueOp where
  | save (p : Pending)
  | remove (p : Pending)
  | recordFailure (p : Pending) (now : Millis)
  deriving Repr, DecidableEq

/-- The delivery that a call is about. -/
def QueueOp.delivery : QueueOp → Pending
  | save p | remove p | recordFailure p _ => p

namespace Queue

/-- The queue after one call. -/
def apply (q : Queue) : QueueOp → Queue
  | .save p => (q.save p).1
  | .remove p => (q.remove p).1
  | .recordFailure p now => (q.recordFailure p now).1

/-- The queue after some calls. -/
def after (q : Queue) (ops : List QueueOp) : Queue := ops.foldl apply q

/-- The deliveries in memory. -/
def held (q : Queue) : List Pending := Endpoint.all.flatMap q.pending

end Queue

/-- The deliveries that the files of a store hold. -/
def Storage.Store.deliveries (s : Store) : List Pending :=
  s.place.entries.filterMap fun e =>
    match e.2.payload? with
    | .ok b => Pending.decode? b
    | .error _ => none

/-- Deliveries that can be stored, and that are the same delivery where they have the same id, apart
from the attempts. -/
structure Admissible (ds : List Pending) : Prop where
  agree : ∀ a ∈ ds, ∀ b ∈ ds, a.id = b.id → a.origin = b.origin
  keyed : ∀ a ∈ ds, ∃ k, a.key? = some k ∧ fits k.name = true

/-- The file of a delivery. -/
def Pending.file? (p : Pending) : Option (String × Node) := p.key?.map (·.file p.encode)

/-- The delivery is one of these, at some attempt. -/
def Known (ds : List Pending) (p : Pending) : Prop := ∃ d ∈ ds, p.origin = d.origin

/-- The files are those of the deliveries, which are known ones. -/
structure Mirrors (ds : List Pending) (held : Pending → Prop) (file : String × Node → Prop) :
    Prop where
  known : ∀ p, held p → Known ds p
  files : ∀ f, file f ↔ ∃ p, held p ∧ p.file? = some f

section

variable {ds : List Pending} {held : Pending → Prop} {file : String × Node → Prop}

theorem Known.keyed (adm : Admissible ds) {p : Pending} (known : Known ds p) :
    ∃ k, p.key? = some k ∧ fits k.name = true := by
  obtain ⟨d, member, same⟩ := known
  rw [Pending.key?_of_origin same]
  exact adm.keyed d member

theorem Known.origin_eq (adm : Admissible ds) {a b : Pending} (known : Known ds a)
    (known' : Known ds b) (same : a.id = b.id) : a.origin = b.origin := by
  obtain ⟨d, member, origin⟩ := known
  obtain ⟨d', member', origin'⟩ := known'
  have ids : d.id = d'.id :=
    (Pending.id_of_origin origin).symm.trans (same.trans (Pending.id_of_origin origin'))
  rw [origin, origin', adm.agree d member d' member' ids]

/-- In memory a delivery is found by endpoint and id, on disk by its name. Both find the same. -/
theorem Known.name_eq_iff (adm : Admissible ds) {a b : Pending} (known : Known ds a)
    (known' : Known ds b) {k l : Key} (keyed : a.key? = some k) (keyed' : b.key? = some l) :
    k.name = l.name ↔ a.endpoint = l.kind.endpoint ∧ a.id = l.id := by
  obtain ⟨_, _, id⟩ := Pending.key?_eq_some keyed
  obtain ⟨_, home', id'⟩ := Pending.key?_eq_some keyed'
  constructor
  · intro same
    have equal : k = l := Key.name_injective same
    rw [← equal]
    exact ⟨(Pending.key?_eq_some keyed).2.1.symm, id.symm⟩
  · rintro ⟨_, same⟩
    have origin := known.origin_eq adm known' (same.trans id')
    rw [Pending.key?_of_origin origin, keyed'] at keyed
    rw [Option.some.inj keyed]

theorem Mirrors.without (adm : Admissible ds) (mirrors : Mirrors ds held file) {ks : List Key}
    (named : ∀ l ∈ ks, ∃ y, Known ds y ∧ y.key? = some l) :
    Mirrors ds (fun x => held x ∧ ∀ l ∈ ks, ¬(x.endpoint = l.kind.endpoint ∧ x.id = l.id))
      (fun f => file f ∧ ∀ l ∈ ks, f.1 ≠ l.name) where
  known p h := mirrors.known p h.1
  files f := by
    have kept (x : Pending) (there : held x) (shape : x.file? = some f) (l : Key)
        (member : l ∈ ks) : f.1 = l.name ↔ x.endpoint = l.kind.endpoint ∧ x.id = l.id := by
      obtain ⟨y, known, keyed'⟩ := named l member
      obtain ⟨k, keyed, rfl⟩ := Option.map_eq_some_iff.mp shape
      exact (mirrors.known x there).name_eq_iff adm known keyed keyed'
    constructor
    · rintro ⟨present, others⟩
      obtain ⟨x, there, shape⟩ := (mirrors.files f).mp present
      refine ⟨x, ⟨there, ?_⟩, shape⟩
      intro l member same
      exact others l member ((kept x there shape l member).mpr same)
    · rintro ⟨x, ⟨there, others⟩, shape⟩
      refine ⟨(mirrors.files f).mpr ⟨x, there, shape⟩, ?_⟩
      intro l member same
      exact others l member ((kept x there shape l member).mp same)

theorem Mirrors.with (mirrors : Mirrors ds held file) {p : Pending} (known : Known ds p) {k : Key}
    (keyed : p.key? = some k) :
    Mirrors ds (fun x => x = p ∨ held x) (fun f => file f ∨ f = k.file p.encode) where
  known x h := by
    rcases h with rfl | there
    · exact known
    · exact mirrors.known x there
  files f := by
    have own : p.file? = some (k.file p.encode) := by rw [Pending.file?, keyed, Option.map_some]
    constructor
    · rintro (present | rfl)
      · obtain ⟨x, there, shape⟩ := (mirrors.files f).mp present
        exact ⟨x, .inr there, shape⟩
      · exact ⟨p, .inl rfl, own⟩
    · rintro ⟨x, rfl | there, shape⟩
      · exact .inr (Option.some.inj (shape.symm.trans own))
      · exact .inl ((mirrors.files f).mpr ⟨x, there, shape⟩)

/-- The same deliveries and files in other words. -/
theorem Mirrors.congr (mirrors : Mirrors ds held file) {held' : Pending → Prop}
    {file' : String × Node → Prop} (memory : ∀ p, held' p ↔ held p)
    (disk : ∀ f, file' f ↔ file f) : Mirrors ds held' file' where
  known p there := mirrors.known p ((memory p).mp there)
  files f := by
    rw [disk, mirrors.files]
    simp only [memory]

end

namespace Queue

/-- The files of a queue are the deliveries that it holds. -/
structure Synced (ds : List Pending) (q : Queue) : Prop where
  own : q.store.Own
  tidy : q.Tidy
  sorted : ∀ e, Sorted (q.pending e)
  mirrors : Mirrors ds q.Holds (· ∈ q.store.place.entries)

variable {ds : List Pending} {q : Queue} {store : Store}

theorem ofStore_synced (empty : store.place = .absent ∨ store.place = .folder []) :
    Synced ds (ofStore store) where
  own := by
    rcases empty with none_ | none_ <;> exact ⟨by simp [ofStore, none_], by
      simpa [ofStore, none_, Storage.Place.entries] using Storage.OwnFiles.empty⟩
  tidy := ofStore_tidy store
  sorted e := by simp [Sorted, pending, ofStore]
  mirrors := by
    refine ⟨by simp [Holds, pending, ofStore], ?_⟩
    rcases empty with none_ | none_ <;>
      simp [Holds, pending, ofStore, none_, Storage.Place.entries]

theorem remember_sorted (sorted : ∀ e, Sorted (q.pending e)) {p : Pending}
    (same : ∀ x, q.Holds x → x.endpoint = p.endpoint → x.id = p.id → x.stamp = p.stamp)
    (tidy : q.Tidy) (e : Endpoint) : Sorted ((q.remember p).pending e) := by
  rw [pending_remember]
  split
  case isTrue home =>
    apply insert_sorted (sorted e)
    intro x member equal
    have here := tidy.home e x member
    exact same x (by rw [Holds, here]; exact member) (here.trans home) equal
  case isFalse => exact sorted e

theorem forget_sorted (sorted : ∀ e, Sorted (q.pending e)) (e : Endpoint) (id : String)
    (f : Endpoint) : Sorted ((q.forget e id).pending f) := by
  rw [pending_forget]
  split
  case isTrue => exact (sorted f).sublist List.filter_sublist
  case isFalse => exact sorted f

theorem forgetAll_sorted {keys : List Key} (sorted : ∀ e, Sorted (q.pending e)) (f : Endpoint) :
    Sorted ((q.forgetAll keys).pending f) := by
  induction keys generalizing q with
  | nil => exact sorted f
  | cons key keys ih => exact ih (forget_sorted sorted key.kind.endpoint key.id)

/-- Saving a known delivery, pruned ones included. -/
theorem Synced.save (adm : Admissible ds) (synced : Synced ds q) {p : Pending}
    (known : Known ds p) : Synced ds (q.save p).1 := by
  obtain ⟨k, keyed, fit⟩ := known.keyed adm
  obtain ⟨_, home, id⟩ := Pending.key?_eq_some keyed
  obtain ⟨pruned, done, listed, became⟩ := Store.putBytes_own synced.own fit p.encode
  have result : (q.save p).1 =
      (({ q with store := (q.store.putBytes k p.encode).1 } : Queue).remember p).forgetAll
        pruned := by
    simp only [Queue.save, keyed]
    rw [done]
  have named (l : Key) (member : l ∈ pruned) : ∃ y, Known ds y ∧ y.key? = some l := by
    rcases listed l member with rfl | ⟨payload, present⟩
    · exact ⟨p, known, keyed⟩
    · obtain ⟨y, there, shape⟩ := (synced.mirrors.files _).mp present
      obtain ⟨l', keyed', same⟩ := Option.map_eq_some_iff.mp shape
      have equal : l' = l := Key.name_injective (Prod.mk.inj same).1
      exact ⟨y, synced.mirrors.known y there, equal ▸ keyed'⟩
  have replaced : Mirrors ds
      (fun x => x = p ∨ (q.Holds x ∧ ¬(x.endpoint = p.endpoint ∧ x.id = p.id)))
      (fun f => (f ∈ q.store.place.entries ∧ f.1 ≠ k.name) ∨ f = k.file p.encode) := by
    have named : ∀ l ∈ [k], ∃ y, Known ds y ∧ y.key? = some l := by
      simpa using ⟨p, known, keyed⟩
    have cleared := synced.mirrors.without adm named
    simp only [List.forall_mem_singleton, home, id] at cleared
    exact cleared.with known keyed
  rw [result]
  refine ⟨?_, ?_, ?_, ?_⟩
  · rw [forgetAll_store]
    exact became.own
  · exact ((synced.tidy.withStore _).remember p).forgetAll pruned
  · refine forgetAll_sorted (remember_sorted synced.sorted ?_ (synced.tidy.withStore _))
    intro x there _ same
    exact Pending.stamp_of_origin ((synced.mirrors.known x there).origin_eq adm known same)
  · apply (replaced.without adm named).congr
    · intro x
      rw [holds_forgetAll, holds_remember]
      rfl
    · intro f
      rw [forgetAll_store]
      exact became.mem f

theorem Synced.remove (adm : Admissible ds) (synced : Synced ds q) {p : Pending}
    (known : Known ds p) : Synced ds (q.remove p).1 := by
  obtain ⟨k, keyed, fit⟩ := known.keyed adm
  obtain ⟨_, home, id⟩ := Pending.key?_eq_some keyed
  obtain ⟨_, became⟩ := Store.delete_own synced.own fit
  have result : (q.remove p).1 =
      ({ q with store := (q.store.delete k).1 } : Queue).forget p.endpoint p.id := by
    simp only [Queue.remove, keyed]
  have named : ∀ l ∈ [k], ∃ y, Known ds y ∧ y.key? = some l := by
    simpa using ⟨p, known, keyed⟩
  have cleared := synced.mirrors.without adm named
  simp only [List.forall_mem_singleton, home, id] at cleared
  rw [result]
  refine ⟨became.own, synced.tidy.withStore _ |>.forget _ _, ?_, cleared.congr ?_ became.mem⟩
  · exact forget_sorted (q := { q with store := (q.store.delete k).1 }) synced.sorted _ _
  · intro x
    rw [holds_forget]
    rfl

theorem Synced.apply (adm : Admissible ds) (synced : Synced ds q) {op : QueueOp}
    (member : op.delivery ∈ ds) : Synced ds (q.apply op) := by
  cases op with
  | save p => exact synced.save adm ⟨p, member, rfl⟩
  | remove p => exact synced.remove adm ⟨p, member, rfl⟩
  | recordFailure p now => exact synced.save adm ⟨p, member, Pending.origin_failed p now⟩

theorem Synced.after (adm : Admissible ds) (synced : Synced ds q) {ops : List QueueOp}
    (members : ∀ op ∈ ops, op.delivery ∈ ds) : Synced ds (q.after ops) := by
  induction ops generalizing q with
  | nil => exact synced
  | cons op ops ih =>
    exact ih (synced.apply adm (members op (by simp))) fun o member => members o (by simp [member])

/-! ## Memory and disk -/

theorem Tidy.mem_held (tidy : q.Tidy) {p : Pending} : p ∈ q.held ↔ q.Holds p := by
  rw [held, List.mem_flatMap]
  constructor
  · rintro ⟨e, _, member⟩
    rw [Holds, tidy.home e p member]
    exact member
  · intro there
    exact ⟨p.endpoint, p.endpoint.mem_all, there⟩

theorem Tidy.held_nodup (tidy : q.Tidy) : q.held.Nodup := by
  have endpoints : Endpoint.all.Nodup := by decide
  refine List.nodup_flatMap.mpr ⟨fun e _ => (tidy.ids e).of_map _, endpoints.imp ?_⟩
  intro e f differ p member member'
  exact differ ((tidy.home e p member).symm.trans (tidy.home f p member'))

theorem length_held : q.held.length = q.size := rfl

theorem Tidy.eq_of_id (tidy : q.Tidy) {a b : Pending} (there : q.Holds a) (there' : q.Holds b)
    (endpoint : a.endpoint = b.endpoint) (id : a.id = b.id) : a = b := by
  have first : q.get? b.endpoint b.id = some a := tidy.get?_eq_some_iff.mpr ⟨endpoint, id, there⟩
  have second : q.get? b.endpoint b.id = some b := tidy.get?_eq_some_iff.mpr ⟨rfl, rfl, there'⟩
  exact Option.some.inj (first.symm.trans second)

theorem Synced.eq_of_key (synced : Synced ds q) {a b : Pending}
    (there : q.Holds a) (there' : q.Holds b) {k : Key} (keyed : a.key? = some k)
    (keyed' : b.key? = some k) : a = b := by
  obtain ⟨_, home, id⟩ := Pending.key?_eq_some keyed
  obtain ⟨_, home', id'⟩ := Pending.key?_eq_some keyed'
  exact synced.tidy.eq_of_id there there' (home.symm.trans home') (id.symm.trans id')

theorem Synced.keyed (adm : Admissible ds) (synced : Synced ds q) {p : Pending}
    (there : q.Holds p) : ∃ k, p.key? = some k ∧ fits k.name = true :=
  (synced.mirrors.known p there).keyed adm

theorem Synced.file_mem (synced : Synced ds q) {p : Pending} (there : q.Holds p) {k : Key}
    (keyed : p.key? = some k) : k.file p.encode ∈ q.store.place.entries :=
  (synced.mirrors.files _).mpr ⟨p, there, by rw [Pending.file?, keyed, Option.map_some]⟩

theorem Synced.mem_stored (synced : Synced ds q) (k : Key) :
    k ∈ q.store.stored.1 ↔ ∃ p, q.Holds p ∧ p.key? = some k := by
  rw [Store.mem_stored synced.own]
  constructor
  · rintro ⟨payload, present⟩
    obtain ⟨p, there, shape⟩ := (synced.mirrors.files _).mp present
    obtain ⟨l, keyed, same⟩ := Option.map_eq_some_iff.mp shape
    exact ⟨p, there, Key.name_injective (Prod.mk.inj same).1 ▸ keyed⟩
  · rintro ⟨p, there, keyed⟩
    exact ⟨p.encode, synced.file_mem there keyed⟩

theorem Synced.mem_deliveries (adm : Admissible ds) (synced : Synced ds q) {p : Pending} :
    p ∈ q.store.deliveries ↔ q.Holds p := by
  rw [Store.deliveries, List.mem_filterMap]
  constructor
  · rintro ⟨f, present, read⟩
    obtain ⟨x, there, shape⟩ := (synced.mirrors.files f).mp present
    obtain ⟨k, _, rfl⟩ := Option.map_eq_some_iff.mp shape
    have decoded : Pending.decode? x.encode = some p := read
    rw [Pending.decode?_encode] at decoded
    exact Option.some.inj decoded ▸ there
  · intro there
    obtain ⟨k, keyed, _⟩ := synced.keyed adm there
    exact ⟨_, synced.file_mem there keyed, Pending.decode?_encode p⟩

theorem Synced.deliveries_nodup (synced : Synced ds q) :
    q.store.deliveries.Nodup := by
  rw [List.Nodup, Store.deliveries, List.pairwise_filterMap]
  have names := List.pairwise_map.mp synced.own.files.distinct
  refine List.Pairwise.imp_of_mem ?_ names
  intro f g present present' differ a read b read' same
  obtain ⟨x, _, shape⟩ := (synced.mirrors.files f).mp present
  obtain ⟨y, _, shape'⟩ := (synced.mirrors.files g).mp present'
  obtain ⟨k, keyed, rfl⟩ := Option.map_eq_some_iff.mp shape
  obtain ⟨l, keyed', rfl⟩ := Option.map_eq_some_iff.mp shape'
  have decoded : Pending.decode? x.encode = some a := read
  have decoded' : Pending.decode? y.encode = some b := read'
  rw [Pending.decode?_encode] at decoded decoded'
  have equal : x = y := Option.some.inj (decoded.trans (same ▸ decoded'.symm))
  rw [equal, keyed'] at keyed
  exact differ (congrArg Key.name (Option.some.inj keyed).symm)

/-- Memory and disk hold the same deliveries, each once. -/
theorem Synced.perm (adm : Admissible ds) (synced : Synced ds q) :
    q.held.Perm q.store.deliveries := by
  apply (List.perm_ext_iff_of_nodup synced.tidy.held_nodup synced.deliveries_nodup).mpr
  intro p
  rw [synced.tidy.mem_held, synced.mem_deliveries adm]

theorem Synced.length_stored (adm : Admissible ds) (synced : Synced ds q) :
    q.store.stored.1.length = q.size := by
  have distinct : (q.held.filterMap Pending.key?).Nodup := by
    rw [List.Nodup, List.pairwise_filterMap]
    refine List.Pairwise.imp_of_mem ?_ synced.tidy.held_nodup
    intro a b member member' differ k keyed l keyed' same
    subst same
    exact differ (synced.eq_of_key (synced.tidy.mem_held.mp member)
      (synced.tidy.mem_held.mp member') keyed keyed')
  have perm : q.store.stored.1.Perm (q.held.filterMap Pending.key?) := by
    apply (List.perm_ext_iff_of_nodup (Store.stored_nodup synced.own) distinct).mpr
    intro k
    simp only [synced.mem_stored, List.mem_filterMap, synced.tidy.mem_held]
  have all : (q.held.filterMap Pending.key?).length = q.held.length := by
    apply List.filterMap_length_eq_length.mpr
    intro p member
    obtain ⟨k, keyed, _⟩ := synced.keyed adm (synced.tidy.mem_held.mp member)
    simp [keyed]
  rw [perm.length_eq, all, length_held]

/-! ## Loading -/

theorem Synced.find_eq (adm : Admissible ds) (synced : Synced ds q) {p : Pending}
    (there : q.Holds p) {k : Key} (keyed : p.key? = some k) :
    Queue.find q.store k = ([], .pending p) := by
  obtain ⟨l, keyed', fit⟩ := synced.keyed adm there
  have same : l = k := Option.some.inj (keyed'.symm.trans keyed)
  subst same
  have present := synced.file_mem there keyed
  cases place : q.store.place with
  | absent => simp [place, Storage.Place.entries] at present
  | blocked => exact absurd place synced.own.open_
  | folder es =>
    have distinct := synced.own.files.distinct
    rw [place] at present distinct
    have entry : Storage.Place.entry? es l.name = some (.file (.gzip p.encode)) :=
      (Storage.Place.entry?_eq_some_iff distinct).mpr present
    simp [Queue.find, Store.load, place, Storage.Place.openFile, fit, entry, Node.payload?,
      Storage.Content.payload?, Pending.decode?_encode]

/-- Loading keys whose deliveries are not in memory yet brings in these deliveries. `r` is the queue
that left the files. -/
theorem Synced.loadKeys {r : Queue} (adm : Admissible ds) (synced : Synced ds r) {ks : List Key}
    (distinct : ks.Nodup) (stored : ∀ k ∈ ks, ∃ p, r.Holds p ∧ p.key? = some k)
    (store : q.store = r.store) (tidy : q.Tidy) (sorted : ∀ e, Sorted (q.pending e))
    (inside : ∀ x, q.Holds x → r.Holds x ∧ ∀ k ∈ ks, x.key? ≠ some k) :
    ∃ q', q.loadKeys ks = (q', [], ks.length) ∧ q'.Tidy ∧ (∀ e, Sorted (q'.pending e)) ∧
      ∀ x, q'.Holds x ↔ q.Holds x ∨ (r.Holds x ∧ ∃ k ∈ ks, x.key? = some k) := by
  induction ks generalizing q with
  | nil => exact ⟨q, rfl, tidy, sorted, by simp⟩
  | cons k ks ih =>
    obtain ⟨p, there, keyed⟩ := stored k (by simp)
    obtain ⟨fresh, distinct⟩ := List.nodup_cons.mp distinct
    have found : Queue.find q.store k = ([], .pending p) :=
      store ▸ synced.find_eq adm there keyed
    have other (x : Pending) (held : q.Holds x) : ¬(x.endpoint = p.endpoint ∧ x.id = p.id) := by
      rintro ⟨endpoint, id⟩
      obtain ⟨held', missing⟩ := inside x held
      rw [synced.tidy.eq_of_id held' there endpoint id] at missing
      exact missing k (by simp) keyed
    have new : q.contains p.endpoint p.id = false := by
      rw [contains, Option.isSome_eq_false_iff, Option.isNone_iff_eq_none]
      apply Option.eq_none_iff_forall_ne_some.mpr
      intro x found
      obtain ⟨endpoint, id, held⟩ := tidy.get?_eq_some_iff.mp found
      exact other x held ⟨endpoint, id⟩
    have holds (x : Pending) : (q.remember p).Holds x ↔ x = p ∨ q.Holds x := by
      rw [holds_remember]
      have apart := other x
      tauto
    obtain ⟨q', loaded, tidy', sorted', holds'⟩ :=
      ih (q := q.remember p) distinct (fun l member => stored l (by simp [member])) store
        (tidy.remember p)
        (remember_sorted sorted (fun x held endpoint id => absurd ⟨endpoint, id⟩ (other x held))
          tidy)
        (by
          intro x held
          rcases (holds x).mp held with rfl | held
          · refine ⟨there, fun l member same => fresh ?_⟩
            rw [keyed] at same
            exact Option.some.inj same ▸ member
          · exact ⟨(inside x held).1, fun l member => (inside x held).2 l (by simp [member])⟩)
    refine ⟨q', ?_, tidy', sorted', ?_⟩
    · simp [Queue.loadKeys, found, new, loaded, Nat.add_comm]
    · intro x
      rw [holds', holds]
      constructor
      · rintro ((rfl | held) | ⟨held, l, member, keyed'⟩)
        · exact .inr ⟨there, k, by simp, keyed⟩
        · exact .inl held
        · exact .inr ⟨held, l, by simp [member], keyed'⟩
      · rintro (held | ⟨held, l, member, keyed'⟩)
        · exact .inl (.inr held)
        · rcases List.mem_cons.mp member with rfl | member
          · exact .inl (.inl (synced.eq_of_key held there keyed' keyed))
          · exact .inr ⟨held, l, member, keyed'⟩

/-- A new queue over the files of a queue loads what that queue holds. -/
theorem Synced.load (adm : Admissible ds) (synced : Synced ds q) :
    ∃ q', (ofStore q.store).load = (q', [], q.size) ∧ q'.Tidy ∧ (∀ e, Sorted (q'.pending e)) ∧
      ∀ x, q'.Holds x ↔ q.Holds x := by
  obtain ⟨q', loaded, tidy, sorted, holds⟩ :=
    synced.loadKeys adm (q := ofStore q.store) (Store.stored_nodup synced.own)
      (fun k member => (synced.mem_stored k).mp member) rfl (ofStore_tidy _)
      (fun e => by simp [Sorted, pending, ofStore]) (by simp [Holds, pending, ofStore])
  have quiet := Store.stored_reports synced.own
  refine ⟨q', ?_, tidy, sorted, ?_⟩
  · simp only [Queue.load]
    rw [show (ofStore q.store).store = q.store from rfl, loaded, quiet,
      synced.length_stored adm]
    rfl
  · intro x
    rw [holds]
    constructor
    · rintro (held | ⟨held, _⟩)
      · simp [Holds, pending, ofStore] at held
      · exact held
    · intro held
      obtain ⟨k, keyed, _⟩ := synced.keyed adm held
      exact .inr ⟨held, k, (synced.mem_stored k).mpr ⟨x, held, keyed⟩, keyed⟩

/-- Two queues that hold the same deliveries have them in the same order, where no two were made at
the same time with the same number. -/
theorem pending_eq {q' : Queue} (tidy : q.Tidy) (tidy' : q'.Tidy)
    (sorted : ∀ e, Sorted (q.pending e)) (sorted' : ∀ e, Sorted (q'.pending e))
    (holds : ∀ x, q'.Holds x ↔ q.Holds x) {e : Endpoint}
    (distinct : ((q.pending e).map fun p => (p.created, p.sequence)).Nodup) :
    q'.pending e = q.pending e := by
  have member (x : Pending) : x ∈ q'.pending e ↔ x ∈ q.pending e := by
    constructor
    · intro there
      have home := tidy'.home e x there
      have held : q.Holds x := (holds x).mp (by rw [Holds, home]; exact there)
      rw [Holds, home] at held
      exact held
    · intro there
      have home := tidy.home e x there
      have held : q'.Holds x := (holds x).mpr (by rw [Holds, home]; exact there)
      rw [Holds, home] at held
      exact held
  have perm : (q'.pending e).Perm (q.pending e) :=
    (List.perm_ext_iff_of_nodup ((tidy'.ids e).of_map _) ((tidy.ids e).of_map _)).mpr member
  refine perm.eq_of_pairwise ?_ (sorted' e) (sorted e)
  intro a b there there' after before
  exact List.inj_on_of_nodup_map distinct ((member a).mp there) there'
    (Pending.eq_of_not_isBefore before after)

/-- Where each known delivery has a time and number of its own, so has each that is held. -/
theorem Synced.stamps_nodup (synced : Synced ds q)
    (own : ∀ a ∈ ds, ∀ b ∈ ds, (a.created, a.sequence) = (b.created, b.sequence) →
      a.origin = b.origin) :
    (q.held.map fun p => (p.created, p.sequence)).Nodup := by
  refine List.pairwise_map.mpr (List.Pairwise.imp_of_mem ?_ synced.tidy.held_nodup)
  intro a b member member' differ same
  have there := synced.tidy.mem_held.mp member
  have there' := synced.tidy.mem_held.mp member'
  obtain ⟨d, inside, origin⟩ := synced.mirrors.known a there
  obtain ⟨d', inside', origin'⟩ := synced.mirrors.known b there'
  have stamps : (d.created, d.sequence) = (d'.created, d'.sequence) := by
    have stamp : a.stamp = d.stamp := Pending.stamp_of_origin origin
    have stamp' : b.stamp = d'.stamp := Pending.stamp_of_origin origin'
    exact stamp.symm.trans (same.trans stamp')
  have equal : a.origin = b.origin :=
    origin.trans ((own d inside d' inside' stamps).trans origin'.symm)
  exact differ (synced.tidy.eq_of_id there there' (Pending.endpoint_of_origin equal)
    (Pending.id_of_origin equal))

/-- After any calls on a queue over an empty store, the files are the deliveries in memory, and a
queue that starts from the files takes over where this one was. -/
theorem restart_equivalent {store : Store}
    (empty : store.place = .absent ∨ store.place = .folder []) {ops : List QueueOp}
    (adm : Admissible (ops.map QueueOp.delivery)) {done : List QueueOp} (early : done <+: ops) :
    let q := (ofStore store).after done
    let r := (ofStore q.store).load
    q.held.Perm q.store.deliveries ∧ r.2.2 = q.held.length ∧
      ((q.held.map fun p => (p.created, p.sequence)).Nodup →
        ∀ e, r.1.pending e = q.pending e) := by
  intro q r
  have members (op : QueueOp) (member : op ∈ done) :
      op.delivery ∈ ops.map QueueOp.delivery :=
    List.mem_map.mpr ⟨op, early.subset member, rfl⟩
  have synced : Synced (ops.map QueueOp.delivery) q := (ofStore_synced empty).after adm members
  obtain ⟨q', loaded, tidy, sorted, holds⟩ := synced.load adm
  have result : r = (q', [], q.size) := loaded
  refine ⟨synced.perm adm, ?_, ?_⟩
  · rw [result, length_held]
  · intro distinct e
    rw [result]
    refine pending_eq synced.tidy tidy synced.sorted sorted holds (distinct.sublist ?_)
    have part : (q.pending e).Sublist q.held :=
      List.sublist_flatten_of_mem (List.mem_map.mpr ⟨e, e.mem_all, rfl⟩)
    exact part.map _

/-- A log is stored, then pruned in favour of a crash, and tried once more; there is room for one
payload. -/
theorem restart_equivalent_over_quota :
    let log : Pending := .make "a" 0 .logs [1] 5
    let crash : Pending := .make "b" 1 .crashes [2] 6
    let q := (ofStore ⟨.absent, 1⟩).after [.save log, .save crash, .recordFailure log 7]
    let r := (ofStore q.store).load
    q.held.Perm q.store.deliveries ∧ r.2.2 = q.held.length ∧
      ∀ e, r.1.pending e = q.pending e := by
  intro log crash q r
  have adm : Admissible [log, crash, log] := by
    have log_keyed : ∃ k, log.key? = some k ∧ fits k.name = true :=
      ⟨⟨5, .log, "a", by decide⟩, by decide, by decide +kernel⟩
    have crash_keyed : ∃ k, crash.key? = some k ∧ fits k.name = true :=
      ⟨⟨6, .crash, "b", by decide⟩, by decide, by decide +kernel⟩
    exact ⟨by decide, by simp [log_keyed, crash_keyed]⟩
  have empty : (⟨.absent, 1⟩ : Store).place = .absent ∨ (⟨.absent, 1⟩ : Store).place = .folder [] :=
    .inl rfl
  let ops : List QueueOp := [.save log, .save crash, .recordFailure log 7]
  have admissible : Admissible (ops.map QueueOp.delivery) := adm
  obtain ⟨disk, count, order⟩ := restart_equivalent empty admissible (List.prefix_refl ops)
  have synced : Synced [log, crash, log] q :=
    (ofStore_synced empty).after adm (by simp [QueueOp.delivery])
  exact ⟨disk, count, order (synced.stamps_nodup (by decide))⟩

end Queue

end Outbox
