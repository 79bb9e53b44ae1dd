import Mathlib.Data.List.Perm.Subperm
import Outbox.Proofs.Reload
import Outbox.Proofs.Restart
import Outbox.Proofs.Spellings

/-! # What comes back

A queue finds a delivery under the name of its file and deletes the file that has the name of the
delivery. These are two names where something else than the queue named the file. And of the
deliveries with one id it has only the first in memory. So when all that was loaded has been
removed, the next queue loads what is under the names that no removed delivery has. That is nothing
exactly when names and deliveries fit together, as they do for the files that a queue writes.
-/

namespace Outbox

open Storage (Key Store Place Node fits)

/-! ## The deliveries of a directory -/

theorem Queue.Found.pending?_eq_some_iff {found : Queue.Found} {p : Pending} :
    found.pending? = some p ↔ found = .pending p := by
  cases found <;> simp [pending?]

namespace Storage.Store

variable {s : Store} {k l : Key} {p : Pending} {ks : List Key}

/-- There is a delivery under a key if there is a file with its record. -/
theorem under_eq_pending_iff : s.under k = .pending p ↔ ∃ content b,
    s.place.openFile k.name = .ok (.file content) ∧ content.payload? = .ok b ∧
      Pending.decode? b = some p := by
  unfold under
  cases s.place.openFile k.name with
  | error e => cases e <;> simp
  | ok node =>
    cases node with
    | folder => simp
    | file content =>
      cases held : content.payload? with
      | error e => simp [held]
      | ok b => cases read : Pending.decode? b <;> simp [held, read]

/-- A key under which there is a delivery is listed. -/
theorem mem_stored_of_pending (there : s.under k = .pending p) : k ∈ s.stored.1 := by
  obtain ⟨content, _, opened, _⟩ := under_eq_pending_iff.mp there
  exact mem_stored_of_entry (Place.openFile_eq_ok_iff.mp opened).2 (keyOf?_name k)

/-- Deleting takes away the delivery under the key and no other one. -/
theorem under_delete_eq_pending_iff (s : Store) (k : Key) :
    (s.delete k).1.under l = .pending p ↔ s.under l = .pending p ∧ k ≠ l := by
  simp only [under_eq_pending_iff]
  by_cases same : k = l
  · subst same
    simp only [ne_eq, not_true_eq_false, and_false, iff_false]
    rintro ⟨content, b, opened, _⟩
    have before : s.place.openFile k.name = .ok (.file content) := by
      obtain ⟨fit, found⟩ := Place.openFile_eq_ok_iff.mp opened
      exact Place.openFile_eq_ok_iff.mpr ⟨fit, entry?_of_delete found⟩
    exact delete_lacks before _ opened
  · have apart : l.name ≠ k.name := fun equal => same (Key.name_injective equal).symm
    simp only [Place.openFile_eq_ok_iff, entry?_delete_of_ne s k apart, same, ne_eq,
      not_false_eq_true, and_true]

theorem mem_deliveriesUnder : p ∈ s.deliveriesUnder ks ↔ ∃ k ∈ ks, s.under k = .pending p := by
  simp only [deliveriesUnder, List.mem_filterMap, Queue.Found.pending?_eq_some_iff]

/-- The keys under which there is a delivery. -/
def holding (s : Store) : List Key :=
  s.stored.1.dedup.filter fun k => (s.under k).pending?.isSome

theorem mem_holding : k ∈ s.holding ↔ ∃ p, s.under k = .pending p := by
  simp only [holding, List.mem_filter, List.mem_dedup, Option.isSome_iff_exists,
    Queue.Found.pending?_eq_some_iff]
  exact ⟨And.right, fun ⟨p, there⟩ => ⟨mem_stored_of_pending there, p, there⟩⟩

theorem holding_nodup (s : Store) : s.holding.Nodup := s.stored.1.nodup_dedup.filter _

/-- The deliveries of the directory, each as often as there are files of it. -/
def waiting (s : Store) : List Pending := s.deliveriesUnder s.holding

theorem mem_waiting : p ∈ s.waiting ↔ ∃ k, s.under k = .pending p := by
  rw [waiting, mem_deliveriesUnder]
  exact ⟨fun ⟨k, _, there⟩ => ⟨k, there⟩, fun ⟨k, there⟩ => ⟨k, mem_holding.mpr ⟨p, there⟩, there⟩⟩

theorem length_waiting (s : Store) : s.waiting.length = s.holding.length :=
  List.filterMap_length_eq_length.mpr fun _ member => (List.mem_filter.mp member).2

/-- Names and deliveries fit together: taken as a whole, the names of the files that hold deliveries
are the names that these deliveries have, and no two deliveries have the same id for the same
endpoint. -/
structure Filed (s : Store) : Prop where
  names : (s.waiting.map Pending.key?).Perm (s.holding.map some)
  labels : (s.waiting.map Pending.label).Nodup

instance (s : Store) : Decidable s.Filed :=
  decidable_of_iff ((s.waiting.map Pending.key?).Perm (s.holding.map some) ∧
    (s.waiting.map Pending.label).Nodup) ⟨fun h => ⟨h.1, h.2⟩, fun h => ⟨h.1, h.2⟩⟩

theorem keys_deliveriesUnder
    (named : ∀ k ∈ ks, ∃ p, s.under k = .pending p ∧ p.key? = some k) :
    (s.deliveriesUnder ks).map Pending.key? = ks.map some := by
  induction ks with
  | nil => rfl
  | cons k ks ih =>
    obtain ⟨⟨p, there, keyed⟩, later⟩ := List.forall_mem_cons.mp named
    rw [deliveriesUnder_cons, there, List.map_append, ih later]
    simp [Queue.Found.pending?, keyed]

/-- Files with the names of their deliveries, of which no two have the same label. -/
theorem Filed.of_named (named : ∀ k p, s.under k = .pending p → p.key? = some k)
    (apart : ∀ k l p x, s.under k = .pending p → s.under l = .pending x → p.label = x.label →
      k = l) : s.Filed where
  names := by
    rw [waiting, keys_deliveriesUnder fun k holds => ?_]
    obtain ⟨p, there⟩ := mem_holding.mp holds
    exact ⟨p, there, named k p there⟩
  labels := by
    refine List.pairwise_map.mpr (List.pairwise_filterMap.mpr ?_)
    refine s.holding_nodup.imp fun {k l} differ p there x there' same => differ ?_
    exact apart k l p x (Queue.Found.pending?_eq_some_iff.mp there)
      (Queue.Found.pending?_eq_some_iff.mp there') same

end Storage.Store

namespace Queue

/-! ## Removing -/

variable {q : Queue} {s : Store} {ps : List Pending} {p : Pending} {k : Key}

theorem store_remove (q : Queue) (p : Pending) :
    (q.remove p).1.store = p.key?.elim q.store fun k => (q.store.delete k).1 := by
  unfold remove
  cases p.key? <;> rfl

/-- Removing deliveries leaves those under names that none of them has. -/
theorem under_after_remove (q : Queue) (ps : List Pending) :
    (q.after (ps.map .remove)).store.under k = .pending p ↔
      q.store.under k = .pending p ∧ ∀ x ∈ ps, x.key? ≠ some k := by
  induction ps generalizing q with
  | nil => simp [after]
  | cons x ps ih =>
    have next : q.after ((x :: ps).map .remove) = (q.remove x).1.after (ps.map .remove) := rfl
    rw [next, ih, store_remove, List.forall_mem_cons, ← and_assoc]
    refine and_congr_left fun _ => ?_
    cases x.key? with
    | none => simp
    | some l => simp [Store.under_delete_eq_pending_iff]

/-! ## Loading -/

theorem contains_ofStore (s : Store) (e : Endpoint) (id : String) :
    (ofStore s).contains e id = false := by
  simp [contains, get?, pending, ofStore]

/-- A new queue loads the deliveries under all names, of several with one id the first. -/
theorem contains_load_iff {e : Endpoint} {id : String} :
    (ofStore s).load.1.contains e id = true ↔
      ∃ k p, s.under k = .pending p ∧ p.label = (e, id) := by
  have done := loads (ofStore s) s.stored.1
  constructor
  · intro there
    obtain ⟨x, member, same⟩ := contains_iff.mp there
    have home := (ofStore_tidy s).load.home e x member
    rcases done.mem_pending member with before | ⟨k, there⟩
    · simp [pending, ofStore] at before
    · exact ⟨k, x, there, by rw [Pending.label, home, same]⟩
  · rintro ⟨k, p, there, labelled⟩
    cases labelled
    exact contains_loadKeys (Store.mem_stored_of_pending there) there

/-- Loading leaves the files with deliveries. -/
theorem under_load (q : Queue) : q.load.1.store.under k = .pending p ↔
    q.store.under k = .pending p := by
  have done := loads q q.store.stored.1
  have disk : q.load.1.store = _ := done.disk
  have under (listed : k ∈ q.store.stored.1) : q.load.1.store.under k =
      if q.store.under k = .corrupt then .missing else q.store.under k := done.under listed
  constructor
  · intro there
    have listed : k ∈ q.store.stored.1 := by
      have after := Store.mem_stored_of_pending there
      rw [disk] at after
      exact q.store.stored_sift _ after
    rw [under listed] at there
    split at there
    · cases there
    · exact there
  · intro there
    rw [under (Store.mem_stored_of_pending there), there]
    rfl

theorem load_eq_zero_iff :
    (ofStore s).load.2.2 = 0 ↔ ∀ k p, s.under k ≠ .pending p := by
  have number : (ofStore s).load.2.2 = _ := (loads (ofStore s) s.stored.1).number
  have fresh : (ofStore s).newcomers (s.deliveriesUnder s.stored.1) =
      firsts (s.deliveriesUnder s.stored.1) := by
    rw [newcomers, List.filter_eq_self.mpr]
    simp [contains_ofStore]
  have none_iff (xs : List Pending) : (firsts xs).length = 0 ↔ xs = [] := by
    cases xs <;> simp [firsts]
  rw [number, show (ofStore s).store = s from rfl, fresh, none_iff,
    List.eq_nil_iff_forall_not_mem]
  simp only [Store.mem_deliveriesUnder, not_exists, not_and]
  exact ⟨fun none_ k p there => none_ p k (Store.mem_stored_of_pending there) there,
    fun none_ p k _ => none_ k p⟩

/-! ## What the next queue loads -/

/-- What a new queue loaded: deliveries of the directory, one for each label. -/
structure Loaded (s : Store) (ps : List Pending) : Prop where
  waiting : ps ⊆ s.waiting
  labels : (ps.map Pending.label).Nodup
  all : ∀ p ∈ s.waiting, ∃ x ∈ ps, x.label = p.label

theorem Tidy.held_labels (tidy : q.Tidy) : (q.held.map Pending.label).Nodup := by
  refine List.pairwise_map.mpr (tidy.held_nodup.imp_of_mem ?_)
  intro a b there there' differ same
  obtain ⟨endpoint, id⟩ := Prod.mk.inj same
  exact differ (tidy.eq_of_id (tidy.mem_held.mp there) (tidy.mem_held.mp there') endpoint id)

theorem loaded (all : ps.Perm (ofStore s).load.1.held) : Loaded s ps := by
  have tidy := (ofStore_tidy s).load
  refine ⟨fun p member => ?_, ((all.map _).nodup_iff).mpr tidy.held_labels, fun p there => ?_⟩
  · have held := tidy.mem_held.mp (all.subset member)
    rcases (loads (ofStore s) s.stored.1).mem_pending held with before | there
    · simp [pending, ofStore] at before
    · exact Store.mem_waiting.mpr there
  · obtain ⟨k, under⟩ := Store.mem_waiting.mp there
    obtain ⟨x, member, same⟩ := contains_iff.mp (contains_load_iff.mpr ⟨k, p, under, rfl⟩)
    have home := tidy.home p.endpoint x member
    refine ⟨x, all.mem_iff.mpr (tidy.mem_held.mpr ?_), by rw [Pending.label, home, same]; rfl⟩
    rw [Holds, home]
    exact member

/-- Every name is that of a delivery that was loaded exactly when names and deliveries fit. There
are as many names as deliveries, so none is left for a second delivery with the same label. -/
theorem Loaded.filed_iff (loaded : Loaded s ps) :
    (∀ k ∈ s.holding, ∃ x ∈ ps, x.key? = some k) ↔ s.Filed := by
  constructor
  · intro named
    have names : (s.holding.map some).Subperm (ps.map Pending.key?) := by
      refine List.subperm_of_subset (s.holding_nodup.map (Option.some_injective _)) ?_
      intro key member
      obtain ⟨k, holds, rfl⟩ := List.mem_map.mp member
      obtain ⟨x, inside, keyed⟩ := named k holds
      exact List.mem_map.mpr ⟨x, inside, keyed⟩
    have part : ps.Subperm s.waiting :=
      List.subperm_of_subset (loaded.labels.of_map _) loaded.waiting
    have few : s.waiting.length ≤ ps.length := by
      have enough := names.length_le
      rw [List.length_map, List.length_map, ← s.length_waiting] at enough
      exact enough
    have same : ps.Perm s.waiting := part.perm_of_length_le few
    refine ⟨((same.map _).symm.trans ?_), ((same.map _).nodup_iff).mp loaded.labels⟩
    refine (names.perm_of_length_le ?_).symm
    rw [List.length_map, List.length_map, same.length_eq, s.length_waiting]
  · intro filed k holds
    obtain ⟨p, there, keyed⟩ :=
      List.mem_map.mp (filed.names.mem_iff.mpr (List.mem_map_of_mem holds))
    obtain ⟨x, inside, same⟩ := loaded.all p there
    refine ⟨x, inside, ?_⟩
    rw [List.inj_on_of_nodup_map filed.labels (loaded.waiting inside) there same, keyed]

/-- The file of a known delivery has its name, so what a queue stored itself does not come back. -/
theorem Synced.filed {ds : List Pending} (adm : Admissible ds) (synced : Synced ds q) :
    q.store.Filed := by
  have under {k : Key} {p : Pending} (there : q.store.under k = .pending p) :
      q.Holds p ∧ p.key? = some k := by
    obtain ⟨x, held, keyed⟩ := (synced.mem_stored k).mp (Store.mem_stored_of_pending there)
    obtain ⟨_, found, _⟩ := Queue.find_eq q.store k
    rw [synced.find_eq adm held keyed, there] at found
    cases found
    exact ⟨held, keyed⟩
  refine .of_named (fun k p there => (under there).2) fun k l p x there there' same => ?_
  obtain ⟨held, keyed⟩ := under there
  obtain ⟨held', keyed'⟩ := under there'
  obtain ⟨endpoint, id⟩ := Prod.mk.inj same
  rw [synced.tidy.eq_of_id held held' endpoint id, keyed'] at keyed
  exact (Option.some.inj keyed).symm

/-- When all that a new queue loaded from a directory has been removed, in any order, the next queue
has the deliveries under the names that no removed delivery has, and it loads nothing exactly when
the names of the files and the deliveries in them fit together. -/
theorem comes_back_unless_filed (all : ps.Perm (ofStore s).load.1.held) :
    let left := ((ofStore s).load.1.after (ps.map .remove)).store
    ((ofStore left).load.2.2 = 0 ↔ s.Filed) ∧
    ∀ e id, (ofStore left).load.1.contains e id = true ↔ ∃ k p, s.under k = .pending p ∧
      p.label = (e, id) ∧ ∀ x ∈ ps, x.key? ≠ some k := by
  intro left
  have kept (k : Key) (p : Pending) : left.under k = .pending p ↔
      s.under k = .pending p ∧ ∀ x ∈ ps, x.key? ≠ some k := by
    rw [under_after_remove, under_load]
    rfl
  constructor
  · rw [load_eq_zero_iff, ← (loaded all).filed_iff]
    simp only [Store.mem_holding, ne_eq, kept, not_and, not_forall, not_not, exists_prop,
      forall_exists_index]
  · intro e id
    simp only [contains_load_iff, kept]
    exact exists₂_congr fun k p => and_assoc.trans (and_congr_right fun _ => and_comm)

/-- The delivery is under its own name, next to a file of other origin. -/
theorem comes_back_unless_filed_of_own_name :
    let a : Pending := .make "a" 0 .logs [1] 5
    let s : Store := ⟨.folder [("notes.txt", .file (.raw [7])),
      ("5_log_a_v1.gz", .file (.gzip a.encode))], 500⟩
    let q := (ofStore s).load.1
    q.held = [a] ∧ (ofStore (q.after [.remove a]).store).load.2.2 = 0 := by
  intro a s q
  have held : q.held = [a] := by decide +kernel
  have all : [a].Perm q.held := .of_eq held.symm
  exact ⟨held, (comes_back_unless_filed all).1.mpr (by decide +kernel)⟩

/-- A file holds a delivery with another id than its name says. The delivery is loaded and removed,
which looks for a file of another name, and the next queue loads it again. -/
theorem comes_back_under_other_name :
    let b : Pending := .make "b" 0 .logs [1] 5
    let s : Store := ⟨.folder [("5_log_a_v1.gz", .file (.gzip b.encode))], 500⟩
    let q := (ofStore s).load.1
    let left := (q.remove b).1.store
    q.held = [b] ∧ (q.remove b).1.held = [] ∧ left = s ∧ (ofStore left).load.2.2 = 1 ∧
      (ofStore left).load.1.held = [b] := by
  decide +kernel

end Queue

end Outbox
