import Outbox.Proofs.Arrivals
import Outbox.Proofs.Returns

/-! # The order of the queue

An endpoint has its deliveries in the order of their stamps, each id once, whatever came before:
calls, payloads that the store took, files that were loaded, and processes that ended. This asks
only that deliveries with one id have one stamp. Each call is a delivery that is put in its place
and others that leave, so nothing but a new stamp under an old id could break the order.
-/

namespace Outbox

open Storage (Key Store Place)

/-! ## Stamps and labels -/

/-- What a delivery with this key is known by. -/
def Storage.Key.label (k : Key) : Endpoint × String := (k.kind.endpoint, k.id)

theorem Pending.label_of_key? {p : Pending} {k : Key} (keyed : p.key? = some k) :
    k.label = p.label := by
  obtain ⟨_, home, id⟩ := Pending.key?_eq_some keyed
  exact Prod.ext home id

theorem Pending.label_of_origin {a b : Pending} (same : a.origin = b.origin) : a.label = b.label :=
  Prod.ext (Pending.endpoint_of_origin same) (Pending.id_of_origin same)

/-- A delivery that is known by what its key would say has this key. -/
theorem Pending.key?_of_label {p : Pending} {k : Key} (labelled : p.label = k.label)
    (created : p.created = k.timestamp) : p.key? = some k := by
  obtain ⟨home, id⟩ := Prod.mk.inj labelled
  have kind : p.endpoint.kind? = some k.kind := Endpoint.kind?_eq_some_iff.mpr home.symm
  have made : Storage.Key.make p.created k.kind p.id = .ok k := by
    rw [created, id, Storage.Key.make, dif_pos k.valid]
  simp only [key?, kind, made]

/-- Deliveries of which those with one id for one endpoint have one stamp, and a store whose files
hold no others. -/
structure Accords (ds : List Pending) (s : Store) : Prop where
  stamps : ∀ a ∈ ds, ∀ b ∈ ds, a.label = b.label → a.stamp = b.stamp
  files : ∀ k p, s.under k = .pending p → p ∈ ds

theorem Accords.stamp_eq {ds : List Pending} {s : Store} (accords : Accords ds s) {a b : Pending}
    (known : Known ds a) (known' : Known ds b) (same : a.label = b.label) : a.stamp = b.stamp := by
  obtain ⟨d, member, origin⟩ := known
  obtain ⟨d', member', origin'⟩ := known'
  rw [Pending.stamp_of_origin origin, Pending.stamp_of_origin origin']
  refine accords.stamps d member d' member' ?_
  rw [← Pending.label_of_origin origin, ← Pending.label_of_origin origin', same]

/-! ## What happens to a queue -/

/-- What can happen to a queue: a call, loading, and the end of its process. -/
inductive QueueEvent where
  | call (op : QueueOp)
  | load
  /-- A new process has a queue over the same store, in which nothing is loaded. -/
  | restart
  deriving Repr, DecidableEq

/-- The delivery that an event is about. -/
def QueueEvent.delivery? : QueueEvent → Option Pending
  | call op => some op.delivery
  | load | restart => none

namespace Queue

def meet (q : Queue) : QueueEvent → Queue
  | .call op => q.apply op
  | .load => q.load.1
  | .restart => ofStore q.store

/-- The queue after some events. -/
def through (q : Queue) (events : List QueueEvent) : Queue := events.foldl meet q

variable {ds ps : List Pending} {q : Queue} {s : Store} {p x : Pending} {k l : Key} {e : Endpoint}

/-! ## One call -/

/-- None of the keys is that of the delivery. -/
def spared (ks : List Key) (e : Endpoint) (id : String) : Bool :=
  decide (∀ k ∈ ks, k.label ≠ (e, id))

theorem pending_forgetAll (q : Queue) (ks : List Key) (e : Endpoint) :
    (q.forgetAll ks).pending e = (q.pending e).filter fun x => spared ks e x.id := by
  induction ks generalizing q with
  | nil => exact (List.filter_eq_self.mpr (by simp [spared])).symm
  | cons k ks ih =>
    show ((q.forget k.kind.endpoint k.id).forgetAll ks).pending e = _
    rw [ih, pending_forget]
    split
    case isTrue home =>
      rw [List.filter_filter]
      refine List.filter_congr fun x _ => ?_
      have own : k.label ≠ (e, x.id) ↔ x.id ≠ k.id := by
        rw [home, ne_eq, ne_eq, Storage.Key.label, Prod.mk.injEq, eq_comm (a := x.id)]
        exact not_congr (and_iff_right rfl)
      rw [Bool.eq_iff_iff, Bool.and_eq_true, spared, spared, decide_eq_true_iff,
        decide_eq_true_iff, List.forall_mem_cons, own, bne_iff_ne]
      exact and_comm
    case isFalse other =>
      refine List.filter_congr fun x _ => ?_
      rw [Bool.eq_iff_iff]
      simp [spared, Storage.Key.label, Ne.symm other]

theorem pending_save (q : Queue) (p : Pending) (e : Endpoint) : (q.save p).1.pending e =
    (if e = p.endpoint then insert p (q.pending e) else q.pending e).filter fun x =>
      spared (q.pruned p) e x.id := by
  have stays (ps : List Pending) : ps.filter (fun x => spared [] e x.id) = ps :=
    List.filter_eq_self.mpr (by simp [spared])
  cases keyed : p.key? with
  | none =>
    rw [pruned, keyed, stays, ← pending_remember]
    simp [save, keyed]
  | some k =>
    rw [(save_of_key keyed).1, pending_forgetAll, pending_remember, pruned, keyed]
    rfl

/-- A file with a delivery, after a payload was stored, holds this payload or was there before. -/
theorem under_putBytes {b : Bytes} (there : (s.putBytes l b).1.under k = .pending x) :
    Pending.decode? b = some x ∨ s.under k = .pending x := by
  obtain ⟨content, bytes, opened, held, read⟩ := Store.under_eq_pending_iff.mp there
  obtain ⟨fit, found⟩ := Place.openFile_eq_ok_iff.mp opened
  rcases Store.entry?_of_putBytes found with ⟨_, same⟩ | before
  · cases same
    cases held
    exact .inl read
  · exact .inr (Store.under_eq_pending_iff.mpr
      ⟨content, bytes, Place.openFile_eq_ok_iff.mpr ⟨fit, before⟩, held, read⟩)

theorem under_save (there : (q.save p).1.store.under k = .pending x) :
    x = p ∨ q.store.under k = .pending x := by
  rw [save_store] at there
  split at there
  · exact .inr there
  · refine (under_putBytes there).imp_left fun read => ?_
    rw [Pending.decode?_encode] at read
    exact (Option.some.inj read).symm

theorem under_remove (there : (q.remove p).1.store.under k = .pending x) :
    q.store.under k = .pending x := by
  rw [store_remove] at there
  cases keyed : p.key? with
  | none => simpa [keyed] using there
  | some l =>
    rw [keyed] at there
    exact ((Store.under_delete_eq_pending_iff q.store l).mp there).1

/-! ## The order -/

/-- Each endpoint has its deliveries in order, each once, and all of them are known. -/
structure Orderly (ds : List Pending) (q : Queue) : Prop where
  tidy : q.Tidy
  sorted : ∀ e, Sorted (q.pending e)
  held : ∀ x, q.Holds x → Known ds x
  files : ∀ k x, q.store.under k = .pending x → Known ds x

theorem ofStore_orderly (files : ∀ k x, s.under k = .pending x → Known ds x) :
    (ofStore s).Orderly ds where
  tidy := ofStore_tidy s
  sorted e := by simp [Sorted, pending, ofStore]
  held x there := by simp [Holds, pending, ofStore] at there
  files := files

theorem Orderly.known_of_mem (orderly : q.Orderly ds) (member : x ∈ q.pending e) :
    Known ds x ∧ x.endpoint = e := by
  have home := orderly.tidy.home e x member
  exact ⟨orderly.held x (by rw [Holds, home]; exact member), home⟩

namespace Orderly

theorem save (accords : Accords ds s) (orderly : q.Orderly ds) (known : Known ds p) :
    (q.save p).1.Orderly ds where
  tidy := orderly.tidy.save p
  sorted e := by
    rw [pending_save]
    refine List.Pairwise.sublist List.filter_sublist ?_
    split
    case isTrue home =>
      refine insert_sorted (orderly.sorted e) fun x member same => ?_
      obtain ⟨known', home'⟩ := orderly.known_of_mem member
      exact accords.stamp_eq known' known (Prod.ext (home'.trans home) same)
    case isFalse => exact orderly.sorted e
  held x there := by
    rcases (holds_save_iff.mp there).1 with rfl | ⟨before, _⟩
    · exact known
    · exact orderly.held x before
  files k x there := by
    rcases under_save there with rfl | before
    · exact known
    · exact orderly.files k x before

theorem remove (orderly : q.Orderly ds) (p : Pending) : (q.remove p).1.Orderly ds where
  tidy := orderly.tidy.remove p
  sorted e := forget_sorted (q := { q with store := _ }) orderly.sorted p.endpoint p.id e
  held x there := orderly.held x (holds_forget.mp there).1
  files k x there := orderly.files k x (under_remove there)

theorem load (orderly : q.Orderly ds) : q.load.1.Orderly ds where
  tidy := orderly.tidy.load
  sorted e := by
    have memory : q.load.1.pending e = _ := (loads q q.store.stored.1).memory e
    rw [memory]
    exact List.foldlRecOn _ _ (orderly.sorted e) fun _ sorted _ _ => insertSorted_sorted sorted
  held x there := by
    rcases (loads q q.store.stored.1).mem_pending there with before | ⟨k, there⟩
    · exact orderly.held x before
    · exact orderly.files k x there
  files k x there := orderly.files k x ((under_load q).mp there)

theorem apply (accords : Accords ds s) (orderly : q.Orderly ds) {op : QueueOp}
    (member : op.delivery ∈ ds) : (q.apply op).Orderly ds := by
  cases op with
  | save p => exact orderly.save accords ⟨p, member, rfl⟩
  | remove p => exact orderly.remove p
  | recordFailure p now => exact orderly.save accords ⟨p, member, Pending.origin_failed p now⟩

theorem meet (accords : Accords ds s) (orderly : q.Orderly ds) {event : QueueEvent}
    (member : ∀ p ∈ event.delivery?, p ∈ ds) : (q.meet event).Orderly ds := by
  cases event with
  | call op => exact orderly.apply accords (member _ rfl)
  | load => exact orderly.load
  | restart => exact ofStore_orderly orderly.files

theorem through (accords : Accords ds s) (orderly : q.Orderly ds) {events : List QueueEvent}
    (members : ∀ event ∈ events, ∀ p ∈ event.delivery?, p ∈ ds) :
    (q.through events).Orderly ds :=
  List.foldlRecOn events Queue.meet orderly fun _ orderly event inside =>
    orderly.meet accords (members event inside)

end Orderly

end Queue

end Outbox
