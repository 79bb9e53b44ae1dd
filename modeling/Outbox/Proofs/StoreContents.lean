import Mathlib.Data.List.Nodup
import Outbox.Proofs.StorageKeys

/-! # What a store of its own holds

In a directory that only its store writes to, every file is a compressed payload under the name of
its key. There each operation has one effect on the files, none of them fails, and the names that
are listed are the keys that were stored.
-/

namespace Outbox.Storage

namespace Place

/-- The entries of the directory, if there is one. -/
def entries : Place → List (String × Node)
  | absent | blocked => []
  | folder es => es

theorem mem_withEntry {es : List (String × Node)} {name : String} {node : Node}
    {e : String × Node} :
    e ∈ withEntry es name node ↔ (e ∈ es ∧ e.1 ≠ name) ∨ e = (name, node) := by
  simp [withEntry, without]

theorem withEntry_distinct {es : List (String × Node)} (distinct : (es.map (·.1)).Nodup)
    (name : String) (node : Node) : ((withEntry es name node).map (·.1)).Nodup := by
  have kept : ((without es name).map (·.1)).Sublist (es.map (·.1)) :=
    List.filter_sublist.map _
  rw [withEntry, List.map_append, List.nodup_append]
  refine ⟨distinct.sublist kept, by simp, ?_⟩
  intro a member b last
  obtain ⟨e, inside, rfl⟩ := List.mem_map.mp member
  have other : e.1 ≠ name := by simpa [without] using (List.mem_filter.mp inside).2
  simp only [List.map_cons, List.map_nil, List.mem_singleton] at last
  rw [last]
  exact other

theorem entry?_eq_some_iff {es : List (String × Node)} (distinct : (es.map (·.1)).Nodup)
    {name : String} {node : Node} : entry? es name = some node ↔ (name, node) ∈ es := by
  unfold entry?
  induction es with
  | nil => simp
  | cons e es ih =>
    obtain ⟨first, value⟩ := e
    simp only [List.map_cons, List.nodup_cons] at distinct
    by_cases same : name = first
    · subst same
      have fresh (v : Node) : (name, v) ∉ es := fun member =>
        distinct.1 (List.mem_map.mpr ⟨_, member, rfl⟩)
      simp [fresh, eq_comm]
    · have other : (name == first) = false := beq_eq_false_iff_ne.mpr same
      simp [List.lookup_cons, other, same, ih distinct.2]

end Place

open Place

/-- The name and content of a stored payload. -/
def Key.file (k : Key) (payload : Bytes) : String × Node := (k.name, .file (.gzip payload))

/-- A directory that holds nothing but what the store wrote, each name once. -/
structure OwnFiles (es : List (String × Node)) : Prop where
  distinct : (es.map (·.1)).Nodup
  own : ∀ e ∈ es, ∃ (k : Key) (payload : Bytes), fits k.name = true ∧ e = k.file payload

theorem OwnFiles.empty : OwnFiles [] := ⟨List.nodup_nil, by simp⟩

theorem OwnFiles.filter {es : List (String × Node)} (h : OwnFiles es)
    (keep : String × Node → Bool) : OwnFiles (es.filter keep) where
  distinct := h.distinct.sublist (List.filter_sublist.map _)
  own e member := h.own e (List.mem_filter.mp member).1

theorem OwnFiles.withEntry {es : List (String × Node)} (h : OwnFiles es) {k : Key}
    (fit : fits k.name = true) (payload : Bytes) :
    OwnFiles (withEntry es k.name (.file (.gzip payload))) where
  distinct := withEntry_distinct h.distinct _ _
  own e member := by
    rcases mem_withEntry.mp member with ⟨old, _⟩ | rfl
    · exact h.own e old
    · exact ⟨k, payload, fit, rfl⟩

theorem OwnFiles.lookup {es : List (String × Node)} (h : OwnFiles es) {name : String} {node : Node}
    (found : entry? es name = some node) : ∃ payload, node = .file (.gzip payload) := by
  obtain ⟨k, payload, _, shape⟩ := h.own _ ((entry?_eq_some_iff h.distinct).mp found)
  exact ⟨payload, (Prod.mk.inj shape).2⟩

namespace Store

/-- The path of the store is free or holds a directory of its own files. -/
structure Own (s : Store) : Prop where
  open_ : s.place ≠ .blocked
  files : OwnFiles s.place.entries

theorem mem_stored {s : Store} (own : s.Own) (k : Key) :
    k ∈ s.stored.1 ↔ ∃ payload, k.file payload ∈ s.place.entries := by
  obtain ⟨place, max⟩ := s
  cases place with
  | blocked => exact absurd rfl own.open_
  | absent => simp [stored, Place.names, Place.entries]
  | folder es =>
    simp only [stored, Place.names, Key.sortNatural, List.mem_mergeSort, List.mem_filterMap,
      List.mem_map, Place.entries]
    constructor
    · rintro ⟨name, ⟨e, member, rfl⟩, read⟩
      obtain ⟨l, payload, _, rfl⟩ := own.files.own e member
      rw [Key.file, keyOf?_name] at read
      exact ⟨payload, Option.some.inj read ▸ member⟩
    · rintro ⟨payload, member⟩
      exact ⟨k.name, ⟨_, member, rfl⟩, keyOf?_name k⟩

theorem stored_reports {s : Store} (own : s.Own) : s.stored.2 = [] := by
  obtain ⟨place, max⟩ := s
  cases place with
  | blocked => exact absurd rfl own.open_
  | absent => rfl
  | folder es => rfl

/-- A file of the store has the name of the key it is listed under. -/
theorem name_of_keyOf? {es : List (String × Node)} (own : OwnFiles es) {name : String}
    (member : name ∈ es.map (·.1)) {k : Key} (read : keyOf? name = some k) : name = k.name := by
  obtain ⟨e, inside, rfl⟩ := List.mem_map.mp member
  obtain ⟨l, payload, _, rfl⟩ := own.own e inside
  rw [Key.file, keyOf?_name] at read
  rw [Key.file, Option.some.inj read]

/-- The keys that are read from names are distinct, if each is read from its own name. -/
theorem keys_nodup {es : List (String × Node)} (distinct : (es.map (·.1)).Nodup)
    (named : ∀ e ∈ es, ∀ k, keyOf? e.1 = some k → e.1 = k.name) :
    (es.filterMap (keyOf? ·.1)).Nodup := by
  rw [List.Nodup, List.pairwise_filterMap]
  refine List.Pairwise.imp_of_mem ?_ (List.pairwise_map.mp distinct)
  intro e e' member member' differ k read l read' same
  rw [named e member k read, named e' member' l read', same] at differ
  exact differ rfl

theorem stored_nodup {s : Store} (own : s.Own) : s.stored.1.Nodup := by
  obtain ⟨place, max⟩ := s
  cases place with
  | blocked => exact absurd rfl own.open_
  | absent => exact List.nodup_nil
  | folder es =>
    apply (List.mergeSort_perm _ _).nodup_iff.mpr
    rw [List.filterMap_map]
    refine keys_nodup own.files.distinct fun e member k read => ?_
    exact name_of_keyOf? own.files (List.mem_map_of_mem member) read

/-- The store after an operation that did not fail: it holds the files that `keeps` describes. -/
structure Became (s s' : Store) (keeps : String × Node → Prop) : Prop where
  own : s'.Own
  maxEntries : s'.maxEntries = s.maxEntries
  mem : ∀ e, e ∈ s'.place.entries ↔ keeps e

/-- Deleting a payload takes its file away and nothing else. -/
theorem delete_own {s : Store} (own : s.Own) {k : Key} (fit : fits k.name = true) :
    (s.delete k).2 = [] ∧
      s.Became (s.delete k).1 (fun e => e ∈ s.place.entries ∧ e.1 ≠ k.name) := by
  obtain ⟨place, max⟩ := s
  cases place with
  | blocked => exact absurd rfl own.open_
  | absent => exact ⟨rfl, own, rfl, by simp [delete, removeFile, entries]⟩
  | folder es =>
    cases found : entry? es k.name with
    | none =>
      have result : delete ⟨.folder es, max⟩ k = (⟨.folder es, max⟩, []) := by
        simp [delete, removeFile, fit, found]
      rw [result]
      refine ⟨rfl, own, rfl, ?_⟩
      rintro ⟨name, node⟩
      have absent (member : (name, node) ∈ es) : name ≠ k.name := by
        rintro rfl
        have present : entry? es k.name = some node :=
          (entry?_eq_some_iff own.files.distinct).mpr member
        rw [present] at found
        cases found
      exact ⟨fun member => ⟨member, absent member⟩, fun h => h.1⟩
    | some node =>
      obtain ⟨payload, rfl⟩ := own.files.lookup found
      have result : delete ⟨.folder es, max⟩ k = (⟨.folder (without es k.name), max⟩, []) := by
        simp [delete, removeFile, fit, found]
      rw [result]
      refine ⟨rfl, ⟨by simp, own.files.filter _⟩, rfl, ?_⟩
      intro e
      simp [entries, without]

theorem deleteAll_own {s : Store} (own : s.Own) {ks : List Key}
    (fit : ∀ k ∈ ks, fits k.name = true) :
    (s.deleteAll ks).2 = [] ∧
      s.Became (s.deleteAll ks).1 (fun e => e ∈ s.place.entries ∧ ∀ k ∈ ks, e.1 ≠ k.name) := by
  induction ks generalizing s with
  | nil => exact ⟨rfl, own, rfl, by simp [deleteAll]⟩
  | cons k ks ih =>
    obtain ⟨quiet, first⟩ := delete_own own (fit k (by simp))
    obtain ⟨quiet', others⟩ := ih first.own fun l member => fit l (by simp [member])
    refine ⟨by simp [deleteAll, quiet, quiet'], others.own,
      others.maxEntries.trans first.maxEntries, ?_⟩
    intro e
    have last := others.mem e
    rw [first.mem e] at last
    simpa [deleteAll, and_assoc] using last

theorem fits_of_mem_stored {s : Store} (own : s.Own) {k : Key} (member : k ∈ s.stored.1) :
    fits k.name = true := by
  obtain ⟨payload, inside⟩ := (mem_stored own k).mp member
  obtain ⟨l, payload', fit, same⟩ := own.files.own _ inside
  have name : k.name = l.name := (Prod.mk.inj same).1
  rw [name]
  exact fit

/-- The quota deletes what comes behind the first few in the order of keeping. -/
theorem enforce_pruned (s : Store) (max : Nat) :
    (s.enforce max).2.2 = (Key.sortRetention s.stored.1).drop max := by
  by_cases few : s.stored.1.length ≤ max
  · have none_ : (Key.sortRetention s.stored.1).drop max = [] := by
      rwa [List.drop_eq_nil_iff, Key.sortRetention, List.length_mergeSort]
    rw [none_]
    simp [enforce, few]
  · simp [enforce, few]

theorem enforce_place (s : Store) (max : Nat) :
    (s.enforce max).1 = (s.deleteAll (s.enforce max).2.2).1 := by
  by_cases few : s.stored.1.length ≤ max
  · simp [enforce, few, deleteAll]
  · simp [enforce, few]

/-- Pruning takes away the files of the keys that it returns, and these were stored. -/
theorem enforce_own {s : Store} (own : s.Own) (max : Nat) :
    (∀ k ∈ (s.enforce max).2.2, k ∈ s.stored.1) ∧
      s.Became (s.enforce max).1
        (fun e => e ∈ s.place.entries ∧ ∀ k ∈ (s.enforce max).2.2, e.1 ≠ k.name) := by
  have listed : ∀ k ∈ (s.enforce max).2.2, k ∈ s.stored.1 := by
    intro k member
    rw [enforce_pruned] at member
    have sorted : k ∈ Key.sortRetention s.stored.1 := List.mem_of_mem_drop member
    rwa [Key.sortRetention, List.mem_mergeSort] at sorted
  have fit : ∀ k ∈ (s.enforce max).2.2, fits k.name = true :=
    fun k member => fits_of_mem_stored own (listed k member)
  rw [enforce_place]
  exact ⟨listed, (deleteAll_own own fit).2⟩

/-- A finished payload whose name fits is put under its name. -/
theorem write_own {s : Store} (own : s.Own) {k : Key} (fit : fits k.name = true) (b : Bytes) :
    write s.place k (.ofBytes b) =
      (.folder (withEntry s.place.entries k.name (.file (.gzip b))), .ok ()) := by
  obtain ⟨place, max⟩ := s
  cases place with
  | blocked => exact absurd rfl own.open_
  | absent => simp [write, create, Draft.ofBytes, Draft.payload?, putFile, fit, entry?, entries]
  | folder es =>
    have file : entry? es k.name ≠ some .folder := by
      intro found
      obtain ⟨payload, shape⟩ := own.files.lookup found
      cases shape
    simp only [write, create, Draft.ofBytes, Draft.payload?, putFile, fit, entries]
    cases found : entry? es k.name with
    | none => simp
    | some node =>
      cases node with
      | folder => exact absurd found file
      | file content => simp

/-- Storing a payload never fails. It replaces the file of the key and takes away the files of the
keys that it returns, which are stored ones or the new one. -/
theorem putBytes_own {s : Store} (own : s.Own) {k : Key} (fit : fits k.name = true) (b : Bytes) :
    ∃ pruned, (s.putBytes k b).2.2 = .ok pruned ∧
      (∀ l ∈ pruned, l = k ∨ ∃ payload, l.file payload ∈ s.place.entries) ∧
      s.Became (s.putBytes k b).1
        (fun e => ((e ∈ s.place.entries ∧ e.1 ≠ k.name) ∨ e = k.file b) ∧
          ∀ l ∈ pruned, e.1 ≠ l.name) := by
  let written : Store :=
    ⟨.folder (withEntry s.place.entries k.name (.file (.gzip b))), s.maxEntries⟩
  have whole : written.Own := ⟨by simp [written], own.files.withEntry fit b⟩
  have result : s.putBytes k b =
      ((written.enforce s.maxEntries).1, (written.enforce s.maxEntries).2.1,
        .ok (written.enforce s.maxEntries).2.2) := by
    simp only [putBytes, put, write_own own fit b]
    rfl
  obtain ⟨listed, pruned⟩ := enforce_own whole s.maxEntries
  rw [result]
  refine ⟨_, rfl, ?_, pruned.own, pruned.maxEntries, ?_⟩
  · intro l member
    obtain ⟨payload, inside⟩ := (mem_stored whole l).mp (listed l member)
    rcases mem_withEntry.mp inside with ⟨old, _⟩ | new
    · exact .inr ⟨payload, old⟩
    · exact .inl (Key.name_injective (Prod.mk.inj new).1)
  · intro e
    rw [pruned.mem e, Key.file, ← mem_withEntry]
    rfl

end Store

end Outbox.Storage
