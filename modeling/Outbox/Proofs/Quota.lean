import Mathlib.Data.String.Basic
import Outbox.Proofs.StoreContents

/-! # What the quota leaves

A store ranks all keys that it finds among its files, whoever wrote them, and deletes those behind
the first few. So a payload that was just stored may be gone when storing it has succeeded. It is
there exactly when fewer files than the quota admits are kept rather than it.
-/

namespace Outbox.Storage

namespace Key

/-- A store keeps `l` rather than `k`, or they are the same. -/
def outlasts (l k : Key) : Bool := (retentionOrder l k).isLE

theorem isLE_compareText {a b : String} : (compareText a b).isLE = true ↔ a ≤ b := by
  unfold compareText compareOfLessAndEq
  rw [le_iff_lt_or_eq]
  split
  · simp [*]
  · split <;> simp [*]

theorem outlasts_iff {l k : Key} : l.outlasts k = true ↔
    l.kind.rank < k.kind.rank ∨ (l.kind.rank = k.kind.rank ∧
      (k.timestamp.val < l.timestamp.val ∨
        (k.timestamp.val = l.timestamp.val ∧ l.id ≤ k.id))) := by
  unfold outlasts retentionOrder
  simp only [Ordering.isLE_then_iff_or, isLE_compareText, compare_lt_iff_lt, compare_eq_iff_eq]

theorem outlasts_trans {a b c : Key} (first : a.outlasts b = true) (second : b.outlasts c = true) :
    a.outlasts c = true := by
  rw [outlasts_iff] at *
  have ids : a.id ≤ b.id → b.id ≤ c.id → a.id ≤ c.id := le_trans
  grind

theorem outlasts_total (a b : Key) : a.outlasts b = true ∨ b.outlasts a = true := by
  rw [outlasts_iff, outlasts_iff]
  have ids := le_total a.id b.id
  grind

theorem outlasts_refl (k : Key) : k.outlasts k = true := (or_self_iff).mp (outlasts_total k k)

/-- Two keys of which each is kept rather than the other are the same. -/
theorem outlasts_antisymm {a b : Key} (first : a.outlasts b = true)
    (second : b.outlasts a = true) : a = b := by
  rw [outlasts_iff] at first second
  have ids : a.id ≤ b.id → b.id ≤ a.id → a.id = b.id := le_antisymm
  have kinds : a.kind.rank = b.kind.rank → a.kind = b.kind := Kind.rank_inj
  have times : a.timestamp.val = b.timestamp.val → a.timestamp = b.timestamp := Ranged.ext
  apply Key.ext <;> grind

theorem sortRetention_sorted (keys : List Key) :
    (sortRetention keys).Pairwise fun a b => a.outlasts b = true := by
  apply List.pairwise_mergeSort
  · exact fun _ _ _ => outlasts_trans
  · intro a b
    rw [Bool.or_eq_true]
    exact outlasts_total a b

/-- In the order of keeping a key comes behind the first few exactly if more are kept rather than
it, itself included. -/
theorem mem_drop_iff {k : Key} {keys : List Key} (member : k ∈ keys)
    (sorted : keys.Pairwise fun a b => a.outlasts b = true) (max : Nat) :
    k ∈ keys.drop max ↔ max < keys.countP (·.outlasts k) := by
  induction keys generalizing max with
  | nil => cases member
  | cons l ls ih =>
    obtain ⟨first, rest⟩ := List.pairwise_cons.mp sorted
    have before : l.outlasts k = true := by
      rcases List.mem_cons.mp member with rfl | later
      · exact outlasts_refl k
      · exact first k later
    have count : (l :: ls).countP (·.outlasts k) = ls.countP (·.outlasts k) + 1 :=
      List.countP_cons_of_pos before
    rw [count]
    cases max with
    | zero => simpa using member
    | succ max =>
      rw [List.drop_succ_cons, Nat.add_lt_add_iff_right]
      by_cases later : k ∈ ls
      · exact ih later rest max
      · -- all that follow the last `k` are kept less than it
        have none_ : ls.countP (·.outlasts k) = 0 := by
          rw [List.countP_eq_zero]
          intro m inside kept
          rcases List.mem_cons.mp member with rfl | there
          · exact later (outlasts_antisymm kept (first m inside) ▸ inside)
          · exact later there
        rw [none_]
        refine ⟨fun dropped => absurd (List.mem_of_mem_drop dropped) later, ?_⟩
        exact fun below => absurd below (Nat.not_lt_zero max)

end Key

namespace Place

variable {es : List (String × Node)} {name other : String}

theorem entry?_filter (good : String → Bool) (es : List (String × Node)) (name : String) :
    entry? (es.filter fun e => good e.1) name = if good name then entry? es name else none := by
  unfold entry?
  induction es with
  | nil => simp
  | cons e es ih =>
    obtain ⟨first, node⟩ := e
    rw [List.filter_cons]
    by_cases same : name = first
    · subst same
      cases kept : good name <;> simp [kept, ih]
    · have apart : (name == first) = false := beq_eq_false_iff_ne.mpr same
      cases good first <;> simp [apart, ih, List.lookup_cons]

theorem entry?_without_self (es : List (String × Node)) (name : String) :
    entry? (without es name) name = none := by
  rw [without, entry?_filter fun other => other != name]
  simp

theorem entry?_without_of_ne (differ : name ≠ other) :
    entry? (without es other) name = entry? es name := by
  rw [without, entry?_filter fun name => name != other]
  simp [differ]

theorem entry?_withEntry_self (es : List (String × Node)) (name : String) (node : Node) :
    entry? (withEntry es name node) name = some node := by
  have missing := entry?_without_self es name
  unfold entry? at missing ⊢
  rw [withEntry, List.lookup_append, missing]
  simp

theorem entry?_withEntry_of_ne (differ : name ≠ other) (node : Node) :
    entry? (withEntry es other node) name = entry? es name := by
  have kept : entry? (without es other) name = entry? es name := entry?_without_of_ne differ
  unfold entry? at kept ⊢
  have apart : (name == other) = false := beq_eq_false_iff_ne.mpr differ
  rw [withEntry, List.lookup_append, kept, List.lookup_cons, apart, List.lookup_nil, Option.or_none]

/-- What can be opened under a name is the entry with that name. -/
theorem openFile_eq_ok_iff {p : Place} {node : Node} : p.openFile name = .ok node ↔
    fits name = true ∧ entry? p.entries name = some node := by
  cases p with
  | absent | blocked => simp [openFile, entries, entry?]
  | folder es =>
    simp only [openFile, entries]
    cases fits name <;> cases entry? es name <;> simp

end Place

open Place

namespace Store

variable {s : Store} {k : Key}

/-- Under the key the store has a file with this payload. -/
def Has (s : Store) (k : Key) (payload : Bytes) : Prop :=
  s.place.openFile k.name = .ok (.file (.gzip payload))

/-- Under the key the store has nothing. -/
def Lacks (s : Store) (k : Key) : Prop := ∀ node, s.place.openFile k.name ≠ .ok node

instance (s : Store) (k : Key) (payload : Bytes) : Decidable (s.Has k payload) :=
  inferInstanceAs (Decidable (_ = _))

instance (s : Store) (k : Key) : Decidable (s.Lacks k) :=
  decidable_of_iff ((s.place.openFile k.name).isOk = false) (by
    unfold Lacks
    cases s.place.openFile k.name <;> simp [Except.isOk, Except.toBool])

/-- How many files the store would keep rather than a new one with this key. -/
def ahead (s : Store) (k : Key) : Nat :=
  s.place.entries.countP fun e => e.1 != k.name && (keyOf? e.1).any (·.outlasts k)

theorem Has.not_lacks {payload : Bytes} (has : s.Has k payload) : ¬s.Lacks k :=
  fun lacks => lacks _ has

theorem Lacks.entry?_eq_none (lacks : s.Lacks k) (fit : fits k.name = true) :
    entry? s.place.entries k.name = none := by
  rw [Option.eq_none_iff_forall_ne_some]
  exact fun node there => lacks node (openFile_eq_ok_iff.mpr ⟨fit, there⟩)

/-! ## Deleting -/

/-- Deleting a payload leaves the other files alone. -/
theorem entry?_delete_of_ne (s : Store) (k : Key) {name : String} (differ : name ≠ k.name) :
    entry? (s.delete k).1.place.entries name = entry? s.place.entries name := by
  obtain ⟨place, max⟩ := s
  cases place with
  | absent | blocked => rfl
  | folder es =>
    simp only [delete, removeFile]
    cases fits k.name with
    | false => rfl
    | true =>
      cases found : entry? es k.name with
      | none => rfl
      | some node =>
        cases node with
        | folder => rfl
        | file content => exact entry?_without_of_ne differ

theorem delete_lacks {content : Content} (there : s.place.openFile k.name = .ok (.file content)) :
    (s.delete k).1.Lacks k := by
  obtain ⟨place, max⟩ := s
  obtain ⟨fit, found⟩ := openFile_eq_ok_iff.mp there
  cases place with
  | absent | blocked => cases found
  | folder es =>
    have found : entry? es k.name = some (.file content) := found
    have result : (delete ⟨.folder es, max⟩ k).1 = ⟨.folder (without es k.name), max⟩ := by
      simp [delete, removeFile, fit, found]
    intro node
    rw [result, ne_eq, openFile_eq_ok_iff, entries, entry?_without_self]
    simp

theorem delete_lacks_of_lacks (l : Key) (lacks : s.Lacks k) : (s.delete l).1.Lacks k := by
  intro node found
  obtain ⟨fit, found⟩ := openFile_eq_ok_iff.mp found
  by_cases same : k.name = l.name
  · have gone : s.delete l = s.delete k := by rw [Key.name_injective same]
    have missing := lacks.entry?_eq_none fit
    obtain ⟨place, max⟩ := s
    rw [gone] at found
    cases place with
    | absent | blocked => cases found
    | folder es =>
      have missing : entry? es k.name = none := missing
      simp [delete, removeFile, fit, missing, entries] at found
  · rw [entry?_delete_of_ne s l same] at found
    exact lacks node (openFile_eq_ok_iff.mpr ⟨fit, found⟩)

theorem entry?_deleteAll_of_ne {ks : List Key} {name : String} (apart : ∀ k ∈ ks, name ≠ k.name) :
    entry? (s.deleteAll ks).1.place.entries name = entry? s.place.entries name := by
  induction ks generalizing s with
  | nil => rfl
  | cons l ks ih =>
    have later := ih (s := (s.delete l).1) fun k member => apart k (List.mem_cons_of_mem _ member)
    rw [entry?_delete_of_ne s l (apart l (by simp))] at later
    exact later

theorem entry?_deleteAll {ks : List Key} (apart : k ∉ ks) :
    entry? (s.deleteAll ks).1.place.entries k.name = entry? s.place.entries k.name :=
  entry?_deleteAll_of_ne fun _ member same => apart (Key.name_injective same ▸ member)

theorem deleteAll_lacks_of_lacks (ks : List Key) (lacks : s.Lacks k) :
    (s.deleteAll ks).1.Lacks k := by
  induction ks generalizing s with
  | nil => exact lacks
  | cons l ks ih => exact ih (delete_lacks_of_lacks l lacks)

theorem deleteAll_lacks {content : Content} {ks : List Key} (member : k ∈ ks)
    (there : s.place.openFile k.name = .ok (.file content)) : (s.deleteAll ks).1.Lacks k := by
  induction ks generalizing s with
  | nil => cases member
  | cons l ks ih =>
    by_cases same : l = k
    · subst same
      exact deleteAll_lacks_of_lacks ks (delete_lacks there)
    · have differ : k.name ≠ l.name := fun equal => same (Key.name_injective equal).symm
      have later : k ∈ ks := (List.mem_cons.mp member).resolve_left (Ne.symm same)
      obtain ⟨fit, found⟩ := openFile_eq_ok_iff.mp there
      have still : (s.delete l).1.place.openFile k.name = .ok (.file content) := by
        rw [openFile_eq_ok_iff, entry?_delete_of_ne s l differ]
        exact ⟨fit, found⟩
      exact ih later still

/-! ## Storing -/

/-- The keys that the store finds among its files. -/
def keys (s : Store) : List Key := s.place.entries.filterMap fun e => keyOf? e.1

theorem mem_keys_of_entry {name : String} {node : Node}
    (found : entry? s.place.entries name = some node) (read : keyOf? name = some k) :
    k ∈ s.keys := by
  obtain ⟨front, back, whole, _⟩ := List.lookup_eq_some_iff.mp found
  exact List.mem_filterMap.mpr ⟨(name, node), by simp [whole], read⟩

theorem stored_perm (s : Store) : s.stored.1.Perm s.keys := by
  obtain ⟨place, max⟩ := s
  cases place with
  | absent | blocked => exact List.Perm.refl _
  | folder es =>
    have names : (es.map (·.1)).filterMap keyOf? = es.filterMap fun e => keyOf? e.1 :=
      List.filterMap_map
    simp only [stored, Place.names, names, keys, entries, Key.sortNatural]
    exact List.mergeSort_perm _ _

theorem ranked_perm (s : Store) : (Key.sortRetention s.stored.1).Perm s.keys :=
  (List.mergeSort_perm _ _).trans s.stored_perm

/-- The quota deletes a stored payload exactly if more are kept rather than it, itself included. -/
theorem mem_enforce {l : Key} (member : l ∈ s.keys) (max : Nat) :
    l ∈ (s.enforce max).2.2 ↔ max < s.keys.countP (·.outlasts l) := by
  have ranked : l ∈ Key.sortRetention s.stored.1 := s.ranked_perm.mem_iff.mpr member
  rw [enforce_pruned, Key.mem_drop_iff ranked (Key.sortRetention_sorted _),
    s.ranked_perm.countP_eq]

/-- What the quota deletes was found among the files. -/
theorem mem_keys_of_mem_enforce {l : Key} {max : Nat} (pruned : l ∈ (s.enforce max).2.2) :
    l ∈ s.keys := by
  rw [enforce_pruned] at pruned
  exact s.ranked_perm.mem_iff.mp (List.mem_of_mem_drop pruned)

/-- The store with one more file, before the quota is enforced. -/
def written (s : Store) (k : Key) (payload : Bytes) : Store :=
  ⟨.folder (withEntry s.place.entries k.name (.file (.gzip payload))), s.maxEntries⟩

theorem written_has (s : Store) (fit : fits k.name = true) (payload : Bytes) :
    (s.written k payload).Has k payload :=
  openFile_eq_ok_iff.mpr ⟨fit, entry?_withEntry_self _ _ _⟩

theorem putBytes_of_placed {b : Bytes} {es : List (String × Node)}
    (folder : s.place.create = .ok (.folder es))
    (placed : putFile (.folder es) k.name (.gzip b) =
      .ok (.folder (withEntry s.place.entries k.name (.file (.gzip b))))) :
    ∃ reports, s.putBytes k b =
      (((s.written k b).enforce s.maxEntries).1, reports,
        .ok ((s.written k b).enforce s.maxEntries).2.2) := by
  refine ⟨((s.written k b).enforce s.maxEntries).2.1, ?_⟩
  simp only [putBytes, put, write, folder, Draft.ofBytes, Draft.payload?, List.flatten_cons,
    List.flatten_nil, List.append_nil, placed]
  rfl

/-- A payload whose name fits is written, unless the path is blocked or the name is taken by a
directory. -/
theorem putBytes_eq (s : Store) (k : Key) (b : Bytes) :
    (fits k.name = true ∧ ∃ reports, s.putBytes k b =
      (((s.written k b).enforce s.maxEntries).1, reports,
        .ok ((s.written k b).enforce s.maxEntries).2.2)) ∨
    ((∃ e, (s.putBytes k b).2.2 = .error e) ∧ (s.putBytes k b).1.place.entries = s.place.entries ∧
      ∀ content, s.place.openFile k.name ≠ .ok (.file content)) := by
  obtain ⟨place, max⟩ := s
  cases place with
  | blocked => exact .inr ⟨⟨_, rfl⟩, rfl, by simp [openFile]⟩
  | absent =>
    cases fit : fits k.name with
    | true =>
      have placed : putFile (.folder []) k.name (.gzip b) =
          .ok (.folder (withEntry [] k.name (.file (.gzip b)))) := by
        simp [putFile, fit, entry?]
      exact .inl ⟨rfl, putBytes_of_placed rfl placed⟩
    | false =>
      refine .inr ⟨⟨.file "rename payload into place" .invalidName, ?_⟩, ?_, by simp [openFile]⟩ <;>
        simp [putBytes, put, write, create, Draft.ofBytes, Draft.payload?, putFile, fit, entries]
  | folder es =>
    cases fit : fits k.name with
    | false =>
      refine .inr ⟨⟨.file "rename payload into place" .invalidName, ?_⟩, ?_, ?_⟩ <;>
        simp [putBytes, put, write, create, Draft.ofBytes, Draft.payload?, putFile, fit, entries,
          openFile]
    | true =>
      by_cases taken : entry? es k.name = some .folder
      · refine .inr ⟨⟨.file "rename payload into place" .isADirectory, ?_⟩, ?_, ?_⟩ <;>
          simp [putBytes, put, write, create, Draft.ofBytes, Draft.payload?, putFile, fit, taken,
            entries, openFile]
      · have placed : putFile (.folder es) k.name (.gzip b) =
            .ok (.folder (withEntry es k.name (.file (.gzip b)))) := by
          simp only [putFile, fit]
          cases found : entry? es k.name with
          | none => simp
          | some node =>
            cases node with
            | folder => exact absurd found taken
            | file content => simp
        exact .inl ⟨rfl, putBytes_of_placed rfl placed⟩

theorem keys_written (s : Store) (k : Key) (b : Bytes) :
    (s.written k b).keys = (without s.place.entries k.name).filterMap (keyOf? ·.1) ++ [k] := by
  simp [keys, written, entries, withEntry, keyOf?_name]

/-- A new payload is behind those that are kept rather than it. -/
theorem countP_written (s : Store) (k : Key) (b : Bytes) :
    (s.written k b).keys.countP (·.outlasts k) = s.ahead k + 1 := by
  rw [keys_written, List.countP_append, List.countP_singleton, if_pos (Key.outlasts_refl k),
    List.countP_filterMap, without, List.countP_filter, ahead]
  congr 1
  apply List.countP_congr
  intro e _
  cases keyOf? e.1 <;> simp [Bool.and_comm]

/-- The quota takes the payload that was stored last, exactly if it has no room for it. -/
theorem mem_enforce_written (s : Store) (k : Key) (b : Bytes) :
    k ∈ ((s.written k b).enforce s.maxEntries).2.2 ↔ s.maxEntries ≤ s.ahead k := by
  have new : k ∈ (s.written k b).keys := by simp [keys_written]
  rw [mem_enforce new, countP_written, Nat.lt_succ_iff]

/-- A payload is there once it was stored, if the quota has room for it. -/
theorem putBytes_has {b : Bytes} (done : (s.putBytes k b).2.2.isOk = true)
    (room : s.ahead k < s.maxEntries) : (s.putBytes k b).1.Has k b := by
  rcases s.putBytes_eq k b with ⟨fit, reports, result⟩ | ⟨⟨e, failed⟩, _⟩
  case inr =>
    rw [failed] at done
    cases done
  have kept : k ∉ ((s.written k b).enforce s.maxEntries).2.2 := fun gone =>
    absurd ((s.mem_enforce_written k b).mp gone) (Nat.not_le_of_lt room)
  rw [result, enforce_place, Has, openFile_eq_ok_iff, entry?_deleteAll kept]
  exact ⟨fit, entry?_withEntry_self _ _ _⟩

/-- A payload is gone as soon as it was stored, if the quota has no room for it. -/
theorem putBytes_lacks {b : Bytes} (done : (s.putBytes k b).2.2.isOk = true)
    (full : s.maxEntries ≤ s.ahead k) : (s.putBytes k b).1.Lacks k := by
  rcases s.putBytes_eq k b with ⟨fit, reports, result⟩ | ⟨⟨e, failed⟩, _⟩
  case inr =>
    rw [failed] at done
    cases done
  rw [result, enforce_place]
  exact deleteAll_lacks ((s.mem_enforce_written k b).mpr full) (s.written_has fit b)

/-- A payload is there exactly if storing it worked and the quota has room for it. -/
theorem putBytes_has_iff {b : Bytes} : (s.putBytes k b).1.Has k b ↔
    (s.putBytes k b).2.2.isOk = true ∧ s.ahead k < s.maxEntries := by
  refine ⟨fun there => ?_, fun h => putBytes_has h.1 h.2⟩
  have done : (s.putBytes k b).2.2.isOk = true := by
    rcases s.putBytes_eq k b with ⟨_, reports, result⟩ | ⟨_, same, absent⟩
    · rw [result]
      rfl
    · obtain ⟨fit, found⟩ := openFile_eq_ok_iff.mp there
      rw [same] at found
      exact absurd (openFile_eq_ok_iff.mpr ⟨fit, found⟩) (absent _)
  refine ⟨done, Nat.lt_of_not_le fun full => ?_⟩
  exact there.not_lacks (putBytes_lacks done full)

/-- Storing replaces a file that is there. -/
theorem putBytes_isOk {b : Bytes} {content : Content}
    (there : s.place.openFile k.name = .ok (.file content)) :
    (s.putBytes k b).2.2.isOk = true := by
  rcases s.putBytes_eq k b with ⟨_, reports, result⟩ | ⟨_, _, absent⟩
  · rw [result]
    rfl
  · exact absurd there (absent content)

/-- What is read from a store is in one of its files. -/
theorem openFile_of_loadBytes {b : Bytes} (read : (s.loadBytes k).2 = .ok (some b)) :
    (s.loadBytes k).1 = [] ∧ ∃ content, s.place.openFile k.name = .ok (.file content) := by
  unfold loadBytes load at read ⊢
  cases found : s.place.openFile k.name with
  | error e => cases e <;> simp [found] at read
  | ok node =>
    cases node with
    | folder => simp [found, Node.payload?] at read
    | file content =>
      refine ⟨?_, content, rfl⟩
      cases held : content.payload? <;> simp_all [Node.payload?]

end Store

end Outbox.Storage
