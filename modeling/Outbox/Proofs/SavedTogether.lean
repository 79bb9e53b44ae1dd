import Outbox.Proofs.Evictions
import Outbox.Proofs.Insertions
import Outbox.Proofs.QueueOrder

/-! # Deliveries that are saved together

Whenever a delivery is saved the store may take others, which leave the queue, and one of these may
come back when it is saved later. In the end it makes no difference: what the quota has no room for
next to all of them leaves whether it comes early or late. For this a file that is named as a known
delivery must be named as this delivery is, and no directory may have such a name.
-/

namespace Outbox

open Storage (Key Store Place fits)

namespace Storage.Store

open Slots

variable {s t : Store} {ks gone : List Key} {k : Key}

/-! ## Payloads one after the other -/

/-- What is left of a directory in which payloads were stored one after the other, and what its
quota took meanwhile: what it would have taken in the end. -/
structure Took (s : Store) (ks : List Key) (t : Store) (gone : List Key) : Prop where
  distinct : t.Distinct
  quota : t.maxEntries = s.maxEntries
  slots : t.slots = if ks = [] then s.slots else trim s.maxEntries (fill s.slots ks)
  gone : ∀ l, l ∈ gone ↔ ks ≠ [] ∧ Over s.maxEntries (fill s.slots ks) l

theorem Took.nil (distinct : s.Distinct) : s.Took [] s [] :=
  ⟨distinct, rfl, (if_pos rfl).symm, by simp⟩

/-- With one more payload the quota has the same places to fill. -/
theorem Took.write (took : s.Took ks t gone) (distinct : s.Distinct) (nodup : (ks ++ [k]).Nodup) :
    trim s.maxEntries (Slots.write k t.slots) = trim s.maxEntries (fill s.slots (ks ++ [k])) ∧
      ∀ l, Over s.maxEntries (fill s.slots (ks ++ [k])) l ↔
        l ∈ gone ∨ Over s.maxEntries (Slots.write k t.slots) l := by
  obtain ⟨first, _, apart⟩ := List.nodup_append.mp nodup
  have new : k ∉ ks := fun member => apart k member k (by simp) rfl
  rw [← write_fill new, took.slots]
  split
  case isTrue none_ =>
    subst none_
    have start : fill s.slots [] = s.slots := by simp [fill]
    simp [start, took.gone]
  case isFalse some_ =>
    have once := (once_slots distinct).fill first
    refine ⟨trim_write_trim once _ k, fun l => ?_⟩
    rw [over_write_iff once, took.gone]
    simp [some_]

theorem Took.concat (took : s.Took ks t gone) (distinct : s.Distinct) (nodup : (ks ++ [k]).Nodup)
    (takes : t.Takes k) (b : Bytes) :
    s.Took (ks ++ [k]) (t.putBytes k b).1 (gone ++ t.pruned k b) := by
  obtain ⟨now, done, distinct', slots, taken⟩ := slots_putBytes took.distinct takes b
  obtain ⟨left, behind⟩ := took.write distinct nodup
  have pruned : t.pruned k b = now := by rw [Store.pruned, done]
  rw [took.quota] at slots taken
  refine ⟨distinct', (maxEntries_putBytes t k b).trans took.quota, ?_, fun l => ?_⟩
  · rw [slots, left, if_neg (by simp)]
  · rw [List.mem_append, pruned, taken, behind]
    simp

/-- What was taken once is taken again. -/
theorem Took.again (took : s.Took ks t gone) (distinct : s.Distinct) (nodup : (ks ++ [k]).Nodup)
    (takes : t.Takes k) (b : Bytes) (before : k ∈ gone) : k ∈ t.pruned k b := by
  obtain ⟨now, done, _, _, taken⟩ := slots_putBytes took.distinct takes b
  have pruned : t.pruned k b = now := by rw [Store.pruned, done]
  obtain ⟨some_, _, behind⟩ := (took.gone k).mp before
  have once := (once_slots distinct).fill (List.nodup_append.mp nodup).1
  rw [pruned, taken, took.quota, took.slots, if_neg some_]
  refine ⟨⟨_, mem_write.mpr (.inr rfl), rfl⟩, (lt_rank_written_iff once k).mpr ?_⟩
  exact behind.trans_le (rank_le_write once k k)

/-- A payload that cannot be stored changes nothing. -/
theorem Took.refuse (took : s.Took ks t gone) (refuses : ¬t.Takes k) (b : Bytes) :
    s.Took ks (t.putBytes k b).1 (gone ++ t.pruned k b) := by
  obtain ⟨⟨e, failed⟩, same⟩ := putBytes_of_not_takes refuses b
  have pruned : t.pruned k b = [] := by rw [Store.pruned, failed]
  rw [pruned, List.append_nil]
  refine ⟨?_, (maxEntries_putBytes t k b).trans took.quota, ?_, took.gone⟩
  · rw [Distinct, same]
    exact took.distinct
  · rw [Store.slots, same]
    exact took.slots

end Storage.Store

/-! ## Names -/

/-- A directory whose names go with the deliveries, as they do where only queues write: each name is
there once, a file that is named by the id of one of them is named by its time too, and a delivery
whose file is there can be written. -/
structure Named (ds : List Pending) (s : Store) : Prop where
  distinct : s.Distinct
  stamps : ∀ k ∈ s.keys, ∀ d ∈ ds, d.label = k.label → d.created = k.timestamp
  takes : ∀ k ∈ s.keys, ∀ d ∈ ds, d.key? = some k → s.Takes k

namespace Named

variable {ds : List Pending} {s t : Store} {p : Pending} {q : Queue}

theorem keyed (named : Named ds s) {k : Key} (member : k ∈ s.keys) {d : Pending} (inside : d ∈ ds)
    (labelled : d.label = k.label) : d.key? = some k :=
  Pending.key?_of_label labelled (named.stamps k member d inside labelled)

theorem shrink (named : Named ds s) (distinct : t.Distinct) (keys : t.keys ⊆ s.keys)
    (takes : ∀ k, s.Takes k → t.Takes k) : Named ds t where
  distinct := distinct
  stamps k member := named.stamps k (keys member)
  takes k member d inside keyed := takes k (named.takes k (keys member) d inside keyed)

theorem sift (named : Named ds s) (good : String → Bool) : Named ds (s.sift good) := by
  have entries : (s.sift good).place.entries = s.place.entries.filter fun e => good e.1 := by
    obtain ⟨place, max⟩ := s
    cases place <;> rfl
  refine named.shrink ?_ (fun k member => ?_) fun k takes => ⟨takes.fit, fun blocked => ?_, ?_⟩
  · rw [Store.Distinct, entries]
    exact named.distinct.sublist (List.filter_sublist.map _)
  · rw [Store.keys, entries] at member
    exact (List.filter_sublist.filterMap _).subset member
  · obtain ⟨place, max⟩ := s
    cases place with
    | blocked => exact takes.open_ rfl
    | absent | folder => cases blocked
  · rw [entries, Storage.Place.entry?_filter]
    split
    · exact takes.free
    · simp

theorem save (accords : Accords ds s) (named : Named ds q.store) (known : Known ds p) :
    Named ds (q.save p).1.store := by
  rw [Queue.save_store]
  cases keyed : p.key? with
  | none => exact named
  | some k =>
    by_cases takes : q.store.Takes k
    · obtain ⟨_, _, distinct, _⟩ := Store.slots_putBytes named.distinct takes p.encode
      have new_or_old {l : Key} (member : l ∈ (q.store.putBytes k p.encode).1.keys) :
          l = k ∨ l ∈ q.store.keys := Store.mem_keys_of_putBytes.2 member
      refine ⟨distinct, fun l member d inside labelled => ?_, fun l member d inside own => ?_⟩
      · rcases new_or_old member with rfl | old
        · have same : d.stamp = p.stamp :=
            accords.stamp_eq ⟨d, inside, rfl⟩ known (labelled.trans (Pending.label_of_key? keyed))
          exact (congrArg Prod.fst same).trans (Pending.key?_eq_some keyed).1.symm
        · exact named.stamps l old d inside labelled
      · rcases new_or_old member with rfl | old
        · exact takes.putBytes _ _
        · exact (named.takes l old d inside own).putBytes _ _
    · have same := (Store.putBytes_of_not_takes takes p.encode).2
      refine named.shrink ?_ (fun l member => ?_) fun l takes => takes.putBytes _ _
      · rw [Store.Distinct, same]
        exact named.distinct
      · rw [Store.keys, same] at member
        exact member

theorem remove (named : Named ds q.store) (p : Pending) : Named ds (q.remove p).1.store := by
  rw [Queue.store_remove]
  cases p.key? with
  | none => exact named
  | some k =>
    exact named.shrink (Store.slots_delete named.distinct k).1
      (fun l member => Store.mem_keys_of_delete member) fun l takes => takes.delete k

theorem meet (accords : Accords ds s) (named : Named ds q.store) {event : QueueEvent}
    (member : ∀ p ∈ event.delivery?, p ∈ ds) : Named ds (q.meet event).store := by
  cases event with
  | call op =>
    have inside := member _ rfl
    cases op with
    | save p => exact named.save accords ⟨p, inside, rfl⟩
    | remove p => exact named.remove p
    | recordFailure p now => exact named.save accords ⟨p, inside, Pending.origin_failed p now⟩
  | load =>
    have disk : q.load.1.store = _ := (Queue.loads q q.store.stored.1).disk
    show Named ds q.load.1.store
    rw [disk]
    exact named.sift _
  | restart => exact named

theorem through (accords : Accords ds s) (named : Named ds q.store) {events : List QueueEvent}
    (members : ∀ event ∈ events, ∀ p ∈ event.delivery?, p ∈ ds) :
    Named ds (q.through events).store :=
  List.foldlRecOn (motive := fun q : Queue => Named ds q.store) events Queue.meet named
    fun _ named event inside => named.meet accords (members event inside)

theorem saveAll (accords : Accords ds s) (named : Named ds q.store) {ps : List Pending}
    (inside : ps ⊆ ds) : Named ds (q.saveAll ps).store :=
  List.foldlRecOn (motive := fun q : Queue => Named ds q.store) ps _ named
    fun _ named p member => named.save accords ⟨p, inside member, rfl⟩

/-- Only a path that cannot be a directory, or a name that does not fit, keeps a delivery from being
stored. -/
theorem takes_iff (named : Named ds s) (inside : p ∈ ds) {k : Key} (keyed : p.key? = some k) :
    s.Takes k ↔ fits k.name = true ∧ s.place ≠ .blocked := by
  refine ⟨fun takes => ⟨takes.fit, takes.open_⟩, fun ⟨fit, open_⟩ => ⟨fit, open_, ?_⟩⟩
  intro folder
  have entry := (Place.entry?_eq_some_iff named.distinct).mp folder
  have member : k ∈ s.keys := List.mem_filterMap.mpr ⟨_, entry, Store.keyOf?_name k⟩
  exact (named.takes k member p inside keyed).free folder

end Named

namespace Queue

variable {ds ps order : List Pending} {q : Queue} {s : Store} {p : Pending}

theorem saveAll_concat (q : Queue) (ps : List Pending) (p : Pending) :
    q.saveAll (ps ++ [p]) = ((q.saveAll ps).save p).1 := q.saveAll_append ps [p]

theorem evicted_concat (q : Queue) (ps : List Pending) (p : Pending) :
    q.evicted (ps ++ [p]) = q.evicted ps ++ (q.saveAll ps).pruned p := by
  rw [evicted_append, evicted, evicted, List.append_nil]

/-- The keys of the deliveries that the store takes. -/
def accepted (s : Store) (ps : List Pending) : List Key :=
  (ps.filterMap Pending.key?).filter fun k => fits k.name && decide (s.place ≠ .blocked)

theorem accepted_nodup (labels : (ps.map Pending.label).Nodup) (s : Store) :
    (accepted s ps).Nodup := by
  refine List.Nodup.filter _ (List.pairwise_filterMap.mpr ?_)
  refine (List.pairwise_map.mp labels).imp fun {a b} apart k keyed l keyed' same => apart ?_
  rw [← Pending.label_of_key? keyed, ← Pending.label_of_key? keyed', same]

theorem accepted_concat {k : Key} (keyed : p.key? = some k)
    (free : fits k.name = true ∧ s.place ≠ .blocked) (ps : List Pending) :
    accepted s (ps ++ [p]) = accepted s ps ++ [k] := by
  simp [accepted, keyed, free]

theorem accepted_perm (perm : order.Perm ps) (s : Store) :
    (accepted s order).Perm (accepted s ps) := (perm.filterMap _).filter _

theorem saveAll_blocked_iff (q : Queue) (ps : List Pending) :
    (q.saveAll ps).store.place = .blocked ↔ q.store.place = .blocked := by
  refine List.foldlRecOn (motive := fun r : Queue => r.store.place = .blocked ↔ _) ps _ .rfl ?_
  intro r same p _
  rw [← same, save_store]
  split
  · rfl
  · exact Store.putBytes_blocked_iff _ _ _

theorem saveAll_took (accords : Accords ds s) (named : Named ds q.store) (inside : ps ⊆ ds)
    (labels : (ps.map Pending.label).Nodup) :
    q.store.Took (accepted q.store ps) (q.saveAll ps).store (q.evicted ps) := by
  induction ps using List.reverseRecOn with
  | nil => exact .nil named.distinct
  | append_singleton ps p ih =>
    have before : ps ⊆ ds := fun x member => inside (List.mem_append_left _ member)
    have took := ih before (labels.sublist ((List.sublist_append_left _ _).map _))
    have nodup := accepted_nodup labels q.store
    rw [saveAll_concat, evicted_concat, save_store, pruned]
    cases keyed : p.key? with
    | none =>
      have same : accepted q.store (ps ++ [p]) = accepted q.store ps := by simp [accepted, keyed]
      rw [same, List.append_nil]
      exact took
    | some k =>
      have takes_iff := (named.saveAll accords before).takes_iff (inside (by simp)) keyed
      rw [Ne, saveAll_blocked_iff] at takes_iff
      by_cases takes : (q.saveAll ps).store.Takes k
      · rw [accepted_concat keyed (takes_iff.mp takes)] at nodup ⊢
        exact took.concat named.distinct nodup takes _
      · have same : accepted q.store (ps ++ [p]) = accepted q.store ps := by
          have refused := mt takes_iff.mpr takes
          simp only [not_and, not_not] at refused
          simpa [accepted, keyed] using refused
        rw [same]
        exact took.refuse takes _

/-- A delivery that was there and was taken is taken again when it is saved. -/
theorem not_spared_again (accords : Accords ds s) (named : Named ds q.store)
    (inside : ps ++ [p] ⊆ ds) (labels : ((ps ++ [p]).map Pending.label).Nodup)
    (gone : spared (q.evicted ps) p.endpoint p.id = false) :
    spared ((q.saveAll ps).pruned p) p.endpoint p.id = false := by
  have before : ps ⊆ ds := fun x member => inside (List.mem_append_left _ member)
  have labels' := labels.sublist ((List.sublist_append_left ps [p]).map _)
  simp only [spared, decide_eq_false_iff_not, not_forall, not_not] at gone
  obtain ⟨k, taken, own⟩ := gone
  -- the other deliveries have other labels, so it was there before all of them
  have old : k ∈ q.store.keys := by
    refine (mem_keys_of_saveAll.1 taken).resolve_right fun saved => ?_
    obtain ⟨y, member, keyed⟩ := saved
    rw [List.map_append, List.nodup_append] at labels
    have same : y.label = p.label := (Pending.label_of_key? keyed).symm.trans own
    exact labels.2.2 _ (List.mem_map_of_mem member) _ (by simp) same
  have keyed : p.key? = some k := named.keyed old (inside (by simp)) own.symm
  have takes := named.takes k old p (inside (by simp)) keyed
  have nodup := accepted_nodup labels q.store
  rw [accepted_concat keyed ⟨takes.fit, takes.open_⟩] at nodup
  have takes' : (q.saveAll ps).store.Takes k := by
    rw [(named.saveAll accords before).takes_iff (inside (by simp)) keyed, Ne, saveAll_blocked_iff]
    exact ⟨takes.fit, takes.open_⟩
  have took := saveAll_took accords named before labels'
  have again : k ∈ (q.saveAll ps).pruned p := by
    rw [pruned, keyed]
    exact took.again named.distinct nodup takes' _ taken
  simp only [spared, decide_eq_false_iff_not, not_forall, not_not]
  exact ⟨k, again, own⟩

theorem spared_append (ks ls : List Key) (e : Endpoint) (id : String) :
    spared (ks ++ ls) e id = (spared ls e id && spared ks e id) := by
  rw [Bool.eq_iff_iff]
  simp [spared, or_imp, forall_and, and_comm]

/-- Known deliveries for one endpoint with one id have one stamp. -/
theorem Orderly.agree (accords : Accords ds s) (orderly : q.Orderly ds) (inside : ps ⊆ ds)
    (e : Endpoint) : Agree (q.pending e ++ ps.filter fun p => p.endpoint = e) := by
  have known (x : Pending) (member : x ∈ q.pending e ++ ps.filter fun p => p.endpoint = e) :
      Known ds x ∧ x.endpoint = e := by
    rcases List.mem_append.mp member with there | new
    · exact orderly.known_of_mem there
    · obtain ⟨listed, home⟩ := List.mem_filter.mp new
      exact ⟨⟨x, inside listed, rfl⟩, of_decide_eq_true home⟩
  intro a member b member' same
  obtain ⟨known_, home⟩ := known a member
  obtain ⟨known', home'⟩ := known b member'
  exact accords.stamp_eq known_ known' (Prod.ext (home.trans home'.symm) same)

/-- What is in memory in the end: all that was saved, each in its place, without what the store took
meanwhile. -/
theorem pending_saveAll (accords : Accords ds s) (named : Named ds q.store)
    (orderly : q.Orderly ds) (inside : ps ⊆ ds) (labels : (ps.map Pending.label).Nodup)
    (e : Endpoint) : (q.saveAll ps).pending e =
      (placed (q.pending e) (ps.filter fun p => p.endpoint = e)).filter fun x =>
        spared (q.evicted ps) e x.id := by
  induction ps using List.reverseRecOn with
  | nil => exact (List.filter_eq_self.mpr (by simp [evicted, spared])).symm
  | append_singleton ps p ih =>
    have before : ps ⊆ ds := fun x member => inside (List.mem_append_left _ member)
    rw [saveAll_concat, pending_save,
      ih before (labels.sublist ((List.sublist_append_left _ _).map _)), List.filter_append,
      evicted_concat]
    simp only [spared_append]
    rw [← List.filter_filter]
    by_cases home : e = p.endpoint
    · subst home
      have sorted := placed_sorted (orderly.agree accords before p.endpoint)
        (orderly.sorted p.endpoint)
      rw [if_pos rfl, List.filter_cons_of_pos (by simp), List.filter_nil, placed_concat]
      cases kept : spared (q.evicted ps) p.endpoint p.id with
      | true => rw [filter_insert_of_kept sorted kept]
      | false =>
        have gone := not_spared_again accords named inside labels kept
        rw [filter_insert_of_gone kept, filter_insert_of_gone gone]
    · rw [if_neg home, List.filter_cons_of_neg (by simpa using Ne.symm home), List.filter_nil,
        List.append_nil]

/-- There are then all that were there or were saved, but for what the store took. -/
theorem contains_saveAll_iff (accords : Accords ds s) (named : Named ds q.store)
    (orderly : q.Orderly ds) (inside : ps ⊆ ds) (labels : (ps.map Pending.label).Nodup)
    (e : Endpoint) (id : String) : (q.saveAll ps).contains e id = true ↔
      (q.contains e id = true ∨ ∃ p ∈ ps, p.label = (e, id)) ∧
        ∀ k ∈ q.evicted ps, k.label ≠ (e, id) := by
  have there : (∃ x ∈ placed (q.pending e) (ps.filter fun p => p.endpoint = e), x.id = id) ↔
      q.contains e id = true ∨ ∃ p ∈ ps, p.label = (e, id) := by
    have ids := any_id_placed (q.pending e) (ps.filter fun p => p.endpoint = e) id
    rw [Bool.eq_iff_iff] at ids
    simpa [List.any_eq_true, or_and_right, exists_or, and_assoc, Pending.label, contains_iff]
      using ids
  rw [contains_iff, pending_saveAll accords named orderly inside labels, ← there]
  simp only [List.mem_filter, spared, decide_eq_true_eq]
  constructor
  · rintro ⟨x, ⟨member, left⟩, rfl⟩
    exact ⟨⟨x, member, rfl⟩, left⟩
  · rintro ⟨⟨x, member, rfl⟩, left⟩
    exact ⟨x, ⟨member, left⟩, rfl⟩

theorem labels_nodup (accords : Accords ds s) (inside : ps ⊆ ds)
    (stamps : (ps.map fun p => (p.endpoint, p.stamp)).Nodup) : (ps.map Pending.label).Nodup := by
  refine List.pairwise_map.mpr ((List.pairwise_map.mp stamps).imp_of_mem ?_)
  intro a b member member' apart same
  exact apart (Prod.ext (Prod.mk.inj same).1
    (accords.stamps a (inside member) b (inside member') same))

/-- It makes no difference in which order deliveries with stamps of their own are saved. -/
theorem saveAll_perm (accords : Accords ds s) (named : Named ds q.store) (orderly : q.Orderly ds)
    (inside : ps ⊆ ds) (stamps : (ps.map fun p => (p.endpoint, p.stamp)).Nodup)
    (perm : order.Perm ps) (e : Endpoint) :
    (q.saveAll order).pending e = (q.saveAll ps).pending e := by
  have labels := labels_nodup accords inside stamps
  have inside' : order ⊆ ds := List.Subset.trans perm.subset inside
  have labels' : (order.map Pending.label).Nodup := (perm.map _).nodup_iff.mpr labels
  have evicted (l : Key) : l ∈ q.evicted order ↔ l ∈ q.evicted ps := by
    have stored := accepted_perm perm q.store
    rw [(saveAll_took accords named inside' labels').gone,
      (saveAll_took accords named inside labels).gone,
      Storage.Slots.over_perm (Storage.Slots.fill_perm stored _)]
    refine and_congr_left fun _ => not_congr ⟨fun none_ => ?_, fun none_ => ?_⟩
    · exact List.Perm.eq_nil (none_ ▸ stored.symm)
    · exact List.Perm.eq_nil (none_ ▸ stored)
  have spared (x : Pending) : spared (q.evicted order) e x.id = spared (q.evicted ps) e x.id := by
    simp only [Queue.spared, evicted]
  have places : placed (q.pending e) (order.filter fun p => p.endpoint = e) =
      placed (q.pending e) (ps.filter fun p => p.endpoint = e) := by
    refine placed_perm (perm.filter _) (orderly.agree accords inside' e) ?_
    have apart := List.pairwise_map.mp ((perm.map _).nodup_iff.mpr stamps)
    refine List.pairwise_map.mpr ((apart.filter _).imp_of_mem ?_)
    intro a b member member' differ same
    have home := of_decide_eq_true (List.mem_filter.mp member).2
    have home' := of_decide_eq_true (List.mem_filter.mp member').2
    exact differ (Prod.ext (home.trans home'.symm) same)
  rw [pending_saveAll accords named orderly inside' labels',
    pending_saveAll accords named orderly inside labels, places]
  simp only [spared]

end Queue

end Outbox
