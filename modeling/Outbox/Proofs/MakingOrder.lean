import Outbox.Proofs.SavedTogether

/-! # The order of making

A process numbers the deliveries that it makes, so that those of one millisecond are told apart.
As long as its clock does not go back, an endpoint has them in the order in which they were made,
and so has the next process, which finds them on disk in another order.
-/

namespace Outbox

open Storage (Key Store Place fits)

/-! ## What one process makes -/

/-- What a delivery is made of, and when. -/
structure Making where
  id : String
  endpoint : Endpoint
  payload : Bytes
  time : Millis
  deriving Repr, DecidableEq

/-- The deliveries that one process makes, one after the other. Its counter is a word of 64 bits. -/
def makeAll (makings : List Making) : List Pending :=
  makings.mapIdx fun i m =>
    .make m.id (.wrap i Word64.bounds) m.endpoint m.payload m.time

/-- Each one is made before those that come later. -/
theorem makeAll_ordered {makings : List Making} (few : makings.length ≤ 2 ^ 64)
    (times : (makings.map (·.time.val)).Pairwise (· ≤ ·)) :
    (makeAll makings).Pairwise fun a b => a.isBefore b = true := by
  have number (i : Nat) (inside : i < makings.length) :
      (Ranged.wrap (i : Int) Word64.bounds).val = i :=
    Ranged.val_wrap_of_mem (by omega) (by omega)
  rw [List.pairwise_map, List.pairwise_iff_getElem] at times
  rw [List.pairwise_iff_getElem]
  intro i j first second before
  rw [makeAll, List.length_mapIdx] at first second
  have later := times i j first second before
  simp only [makeAll, List.getElem_mapIdx, Pending.make, Pending.isBefore, number i first,
    number j second, Bool.or_eq_true, Bool.and_eq_true, decide_eq_true_eq, beq_iff_eq]
  omega

/-- Deliveries that were made one after the other have stamps of their own. -/
theorem Pending.stamps_nodup {made : List Pending}
    (ordered : made.Pairwise fun a b => a.isBefore b = true) : (made.map stamp).Nodup := by
  refine List.pairwise_map.mpr (ordered.imp fun {a b} before same => ?_)
  have again : b.isBefore b = true := (isBefore_of_stamp same b).2 ▸ before
  exact Bool.eq_false_iff.mp (isBefore_asymm again) again

namespace Queue

variable {ds made : List Pending} {q : Queue} {s : Store} {e : Endpoint}

/-- The first id is that of a delivery that was not made after one with the second id. -/
def Follows (made : List Pending) (a b : String) : Prop :=
  ∀ x ∈ made, ∀ y ∈ made, x.id = a → y.id = b → y.isBefore x = false

/-- Deliveries for one endpoint that were made one after the other are listed one after the
other. -/
theorem Orderly.lists (accords : Accords ds s) (orderly : q.Orderly ds)
    (known : ∀ x ∈ made, Known ds x ∧ x.endpoint = e)
    (ordered : made.Pairwise fun a b => a.isBefore b = true) :
    ((q.pending e).map Pending.id).filter (fun id => id ∈ made.map Pending.id) =
      (made.map Pending.id).filter (q.contains e) := by
  have stamp {x y : Pending} (first : Known ds x ∧ x.endpoint = e)
      (second : Known ds y ∧ y.endpoint = e) (same : x.id = y.id) : x.stamp = y.stamp :=
    accords.stamp_eq first.1 second.1 (Prod.ext (first.2.trans second.2.symm) same)
  have stamps := Pending.stamps_nodup ordered
  have ids : (made.map Pending.id).Nodup := by
    refine List.pairwise_map.mpr ((List.pairwise_map.mp stamps).imp_of_mem ?_)
    exact fun member member' apart same =>
      apart (stamp (known _ member) (known _ member') same)
  have held : ((q.pending e).map Pending.id).Pairwise (Follows made) := by
    refine List.pairwise_map.mpr ((orderly.sorted e).imp_of_mem ?_)
    intro u v there there' sorted x member y member' same same'
    have place := stamp (known x member) (orderly.known_of_mem there) same
    have place' := stamp (known y member') (orderly.known_of_mem there') same'
    rw [(Pending.isBefore_of_stamp place' x).2, (Pending.isBefore_of_stamp place v).1, sorted]
  have listed : (made.map Pending.id).Pairwise (Follows made) := by
    refine List.pairwise_map.mpr (ordered.imp_of_mem ?_)
    intro u v there there' before x member y member' same same'
    have place := stamp (known x member) (known u there) same
    have place' := stamp (known y member') (known v there') same'
    rw [(Pending.isBefore_of_stamp place' x).2, (Pending.isBefore_of_stamp place v).1]
    exact Pending.isBefore_asymm before
  refine List.Perm.eq_of_pairwise ?_ (held.filter _) (listed.filter _) ?_
  · intro a b inside inside' first second
    obtain ⟨x, member, rfl⟩ := List.mem_map.mp (of_decide_eq_true (List.mem_filter.mp inside).2)
    obtain ⟨y, member', rfl⟩ := List.mem_map.mp (List.mem_filter.mp inside').1
    have same := Pending.eq_of_not_isBefore (second y member' x member rfl rfl)
      (first x member y member' rfl rfl)
    rw [List.inj_on_of_nodup_map stamps member member' same]
  · refine (List.perm_ext_iff_of_nodup ((orderly.tidy.ids e).filter _) (ids.filter _)).mpr ?_
    intro id
    simp only [List.mem_filter, List.mem_map, contains_iff, decide_eq_true_eq]
    exact and_comm

/-- The ids of those deliveries that are for one endpoint. -/
def idsTo (e : Endpoint) (ps : List Pending) : List String :=
  (ps.filter fun p => p.endpoint = e).map Pending.id

theorem Orderly.lists_made (accords : Accords ds s) (orderly : q.Orderly ds)
    {makings : List Making} (few : makings.length ≤ 2 ^ 64)
    (times : (makings.map (·.time.val)).Pairwise (· ≤ ·)) (inside : makeAll makings ⊆ ds)
    (e : Endpoint) :
    ((q.pending e).map Pending.id).filter (fun id => id ∈ idsTo e (makeAll makings)) =
      (idsTo e (makeAll makings)).filter (q.contains e) := by
  refine orderly.lists accords (fun x member => ?_) ((makeAll_ordered few times).filter _)
  obtain ⟨listed, home⟩ := List.mem_filter.mp member
  exact ⟨⟨x, inside listed, rfl⟩, of_decide_eq_true home⟩

/-- What happens to a queue keeps its deliveries in order, whatever the store takes meanwhile, as
long as deliveries with one id have one stamp. An endpoint has each id once and the deliveries by
their stamps. Where the names of the files go with the deliveries, the order in which deliveries
with stamps of their own are saved makes no difference: all that were there or were saved are there
then, but for what the store took. And those that one process made, while its clock did not go back,
are listed in the order in which they were made, also by the next process, which has all that is on
disk. -/
theorem stays_in_order {events : List QueueEvent} (accords : Accords ds s)
    (members : ∀ event ∈ events, ∀ p ∈ event.delivery?, p ∈ ds) :
    let q := (ofStore s).through events
    let next := (ofStore q.store).load.1
    (∀ e, ((q.pending e).map Pending.id).Nodup ∧ Sorted (q.pending e)) ∧
    (Named ds s → ∀ ps ⊆ ds, (ps.map fun p => (p.endpoint, p.stamp)).Nodup → ∀ e,
      (∀ order, order.Perm ps → (q.saveAll order).pending e = (q.saveAll ps).pending e) ∧
      ∀ id, (q.saveAll ps).contains e id = true ↔
        (q.contains e id = true ∨ ∃ p ∈ ps, p.label = (e, id)) ∧
          ∀ k ∈ q.evicted ps, k.label ≠ (e, id)) ∧
    (∀ makings, makings.length ≤ 2 ^ 64 → (makings.map (·.time.val)).Pairwise (· ≤ ·) →
      makeAll makings ⊆ ds → ∀ r ∈ [q, next], ∀ e,
        ((r.pending e).map Pending.id).filter (fun id => id ∈ idsTo e (makeAll makings)) =
          (idsTo e (makeAll makings)).filter (r.contains e)) ∧
    ∀ e id, next.contains e id = true ↔
      ∃ k p, q.store.under k = .pending p ∧ p.label = (e, id) := by
  intro q next
  have files {k : Key} {x : Pending} (there : s.under k = .pending x) : Known ds x :=
    ⟨x, accords.files k x there, rfl⟩
  have orderly : q.Orderly ds := (ofStore_orderly fun _ _ => files).through accords members
  refine ⟨fun e => ⟨orderly.tidy.ids e, orderly.sorted e⟩, ?_, ?_, fun e id => contains_load_iff⟩
  · intro named ps inside stamps e
    have named : Named ds q.store := named.through accords members
    have labels := labels_nodup accords inside stamps
    exact ⟨fun order perm => saveAll_perm accords named orderly inside stamps perm e,
      contains_saveAll_iff accords named orderly inside labels e⟩
  · intro makings few times inside r either e
    rw [List.mem_pair] at either
    rcases either with rfl | rfl
    · exact orderly.lists_made accords few times inside e
    · exact (ofStore_orderly orderly.files).load.lists_made accords few times inside e

/-- Of two deliveries of one millisecond the second one is on disk when the first one is saved, and
the store has room for one of them. -/
theorem stays_in_order_within_millisecond :
    let a : Pending := .make "a" 0 .logs [1] 5
    let b : Pending := .make "b" 1 .logs [2] 5
    let s : Store := ⟨.folder [("5_log_b_v1.gz", .file (.gzip b.encode))], 1⟩
    let q := (ofStore s).through [.load, .call (.save a)]
    Sorted (q.pending .logs) ∧
      (q.saveAll [b, a]).pending .logs = (q.saveAll [a, b]).pending .logs ∧
      ∀ r ∈ [q, (ofStore q.store).load.1],
        ((r.pending .logs).map Pending.id).filter (fun id => id ∈ ["a", "b"]) =
          ["a", "b"].filter (r.contains .logs) := by
  intro a b s q
  have distinct : s.Distinct := List.nodup_singleton _
  have accords : Accords [a, b] s := by
    refine ⟨by decide +kernel, fun k p there => ?_⟩
    obtain ⟨content, bytes, opened, held, read⟩ := Store.under_eq_pending_iff.mp there
    have found := (Place.entry?_eq_some_iff distinct).mp (Place.openFile_eq_ok_iff.mp opened).2
    obtain ⟨_, rfl⟩ : k.name = _ ∧ content = .gzip b.encode := by
      simpa [s, Place.entries] using found
    cases held
    rw [Pending.decode?_encode] at read
    exact Option.some.inj read ▸ by simp
  have named : Named [a, b] s := by
    have free : ∀ k ∈ s.keys, fits k.name = true ∧
        Place.entry? s.place.entries k.name ≠ some .folder := by decide +kernel
    refine ⟨distinct, by decide +kernel, fun k member _ _ _ => ?_⟩
    exact ⟨(free k member).1, by simp [s], (free k member).2⟩
  have members : ∀ event ∈ ([.load, .call (.save a)] : List QueueEvent),
      ∀ p ∈ event.delivery?, p ∈ [a, b] := by decide +kernel
  obtain ⟨ordered, any_order, made, _⟩ := stays_in_order accords members
  refine ⟨(ordered .logs).2, ?_, fun r either => ?_⟩
  · obtain ⟨same, _⟩ :=
      any_order named [a, b] (List.Subset.refl _) (by decide +kernel) .logs
    exact same [b, a] (.swap a b [])
  · exact made [⟨"a", .logs, [1], 5⟩, ⟨"b", .logs, [2], 5⟩] (by decide) (by decide)
      (by decide +kernel) r either .logs

end Queue

end Outbox
