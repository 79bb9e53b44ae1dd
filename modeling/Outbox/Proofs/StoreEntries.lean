import Outbox.Proofs.Quota

/-! # What an operation leaves of the other entries

Deleting makes no entry and storing makes one. An operation on one key finds the entry of another
one as it was, unless the quota takes it, and a path that is free for files stays so.
-/

namespace Outbox.Storage.Store

open Place

variable {s : Store} {k l : Key} {b c : Bytes}

/-- Nothing keeps the store from having a file under the key: the path is not blocked, the name
fits, and it is not taken by a directory. -/
structure Takes (s : Store) (k : Key) : Prop where
  fit : fits k.name = true
  open_ : s.place ≠ .blocked
  free : entry? s.place.entries k.name ≠ some .folder

theorem without_of_missing {es : List (String × Node)} {name : String}
    (missing : entry? es name = none) : without es name = es := by
  unfold entry? at missing
  refine List.filter_eq_self.mpr fun e member => ?_
  have differ := List.lookup_eq_none_iff.mp missing e member
  exact bne_iff_ne.mpr (Ne.symm (bne_iff_ne.mp differ))

theorem delete_open (open_ : s.place ≠ .blocked) (l : Key) : (s.delete l).1.place ≠ .blocked := by
  obtain ⟨place, max⟩ := s
  cases place with
  | absent => exact open_
  | blocked => exact absurd rfl open_
  | folder es =>
    simp only [delete, removeFile]
    cases fits l.name with
    | false => exact open_
    | true =>
      cases entry? es l.name with
      | none => exact open_
      | some node => cases node <;> simp [open_]

theorem deleteAll_open (open_ : s.place ≠ .blocked) (ls : List Key) :
    (s.deleteAll ls).1.place ≠ .blocked := by
  induction ls generalizing s with
  | nil => exact open_
  | cons l ls ih => exact ih (delete_open open_ l)

theorem write_open (open_ : s.place ≠ .blocked) (l : Key) (b : Bytes) :
    (write s.place l (.ofBytes b)).1 ≠ .blocked := by
  obtain ⟨place, max⟩ := s
  cases place with
  | absent =>
    simp only [write, create, Draft.ofBytes, Draft.payload?, putFile, entry?, List.lookup_nil]
    cases fits l.name <;> simp
  | blocked => exact absurd rfl open_
  | folder es =>
    simp only [write, create, Draft.ofBytes, Draft.payload?, putFile]
    cases fits l.name with
    | false => simp
    | true =>
      cases entry? es l.name with
      | none => simp
      | some node => cases node <;> simp

theorem putBytes_open (open_ : s.place ≠ .blocked) (l : Key) (b : Bytes) :
    (s.putBytes l b).1.place ≠ .blocked := by
  have written := write_open open_ l b
  simp only [putBytes, put]
  split <;> rename_i place found <;> rw [found] at written
  · exact written
  · rw [enforce_place]
    exact deleteAll_open written _

/-- Deleting makes no entry. -/
theorem entry?_of_delete {node : Node} {name : String}
    (found : entry? (s.delete l).1.place.entries name = some node) :
    entry? s.place.entries name = some node := by
  by_cases same : name = l.name
  · subst same
    obtain ⟨place, max⟩ := s
    cases place with
    | absent | blocked => exact found
    | folder es =>
      simp only [delete, removeFile] at found
      cases fit : fits l.name with
      | false => simpa [fit, entries] using found
      | true =>
        cases held : entry? es l.name with
        | none => simp [fit, held, entries] at found
        | some old =>
          cases old with
          | folder => simpa [fit, held, entries] using found
          | file content => simp [fit, held, entries, entry?_without_self] at found
  · rwa [entry?_delete_of_ne s l same] at found

theorem entry?_of_deleteAll {node : Node} {name : String} (ls : List Key)
    (found : entry? (s.deleteAll ls).1.place.entries name = some node) :
    entry? s.place.entries name = some node := by
  induction ls generalizing s with
  | nil => exact found
  | cons l ls ih => exact entry?_of_delete (ih found)

/-- Storing a payload makes no other entry than the one of its key. -/
theorem entry?_of_putBytes {node : Node} {name : String}
    (found : entry? (s.putBytes l b).1.place.entries name = some node) :
    (name = l.name ∧ node = .file (.gzip b)) ∨ entry? s.place.entries name = some node := by
  rcases s.putBytes_eq l b with ⟨_, reports, result⟩ | ⟨_, same, _⟩
  · rw [result, enforce_place] at found
    have written : entry? (withEntry s.place.entries l.name (.file (.gzip b))) name = some node :=
      entry?_of_deleteAll _ found
    by_cases own : name = l.name
    · rw [own, entry?_withEntry_self] at written
      exact .inl ⟨own, (Option.some.inj written).symm⟩
    · rw [entry?_withEntry_of_ne own] at written
      exact .inr written
  · rw [same] at found
    exact .inr found

theorem lacks_of_entries {t : Store}
    (only : ∀ node, entry? t.place.entries k.name = some node →
      entry? s.place.entries k.name = some node)
    (lacks : s.Lacks k) : t.Lacks k := by
  intro node found
  obtain ⟨fit, there⟩ := openFile_eq_ok_iff.mp found
  exact lacks node (openFile_eq_ok_iff.mpr ⟨fit, only node there⟩)

theorem Lacks.putBytes (lacks : s.Lacks k) (other : l ≠ k) (b : Bytes) :
    (s.putBytes l b).1.Lacks k := by
  refine lacks_of_entries (fun node found => ?_) lacks
  rcases entry?_of_putBytes found with ⟨same, _⟩ | before
  · exact absurd (Key.name_injective same).symm other
  · exact before

/-- The store has fewer files than its quota allows. -/
def BelowQuota (s : Store) : Prop := s.stored.1.length < s.maxEntries

instance (s : Store) : Decidable s.BelowQuota := inferInstanceAs (Decidable (_ < _))

theorem ahead_le_stored (s : Store) (k : Key) : s.ahead k ≤ s.stored.1.length := by
  rw [s.stored_perm.length_eq, keys, List.length_filterMap_eq_countP, ahead]
  refine List.countP_mono_left fun e _ kept => ?_
  cases found : keyOf? e.1 with
  | none => simp [found] at kept
  | some l => rfl

/-- A store below its quota deletes nothing when one more file is written. -/
theorem BelowQuota.enforce_written (below : s.BelowQuota) (k : Key) (b : Bytes) :
    ((s.written k b).enforce s.maxEntries).2.2 = [] := by
  have fewer : ((without s.place.entries k.name).filterMap (keyOf? ·.1)).length ≤
      s.stored.1.length := by
    rw [s.stored_perm.length_eq]
    exact (List.filter_sublist.filterMap _).length_le
  have few : (s.written k b).stored.1.length ≤ s.maxEntries := by
    rw [(s.written k b).stored_perm.length_eq, keys_written, List.length_append]
    exact Nat.lt_of_le_of_lt fewer below
  simp [enforce, few]

theorem Has.of_entry (has : s.Has k b) {t : Store}
    (same : entry? t.place.entries k.name = entry? s.place.entries k.name) : t.Has k b := by
  obtain ⟨fit, found⟩ := openFile_eq_ok_iff.mp has
  exact openFile_eq_ok_iff.mpr ⟨fit, same.trans found⟩

theorem Has.deleteAll (has : s.Has k b) {ls : List Key} (apart : k ∉ ls) :
    (s.deleteAll ls).1.Has k b :=
  has.of_entry (entry?_deleteAll apart)

theorem Has.delete (has : s.Has k b) (other : l ≠ k) : (s.delete l).1.Has k b :=
  has.of_entry (entry?_delete_of_ne s l fun same => other (Key.name_injective same).symm)

theorem Has.putBytes (has : s.Has k b) (other : l ≠ k) (below : s.BelowQuota) (c : Bytes) :
    (s.putBytes l c).1.Has k b := by
  rcases s.putBytes_eq l c with ⟨_, reports, result⟩ | ⟨_, same, _⟩
  · rw [result, enforce_place, below.enforce_written]
    exact has.of_entry
      (entry?_withEntry_of_ne (fun same => other (Key.name_injective same).symm) _)
  · exact has.of_entry (congrArg (fun es => entry? es k.name) same)

namespace Takes

theorem delete (takes : s.Takes k) (l : Key) : (s.delete l).1.Takes k where
  fit := takes.fit
  open_ := delete_open takes.open_ l
  free found := takes.free (entry?_of_delete found)

theorem deleteAll (takes : s.Takes k) (ls : List Key) : (s.deleteAll ls).1.Takes k := by
  induction ls generalizing s with
  | nil => exact takes
  | cons l ls ih => exact ih (takes.delete l)

theorem putBytes (takes : s.Takes k) (l : Key) (b : Bytes) : (s.putBytes l b).1.Takes k where
  fit := takes.fit
  open_ := putBytes_open takes.open_ l b
  free found := by
    rcases entry?_of_putBytes found with ⟨_, none_⟩ | before
    · cases none_
    · exact takes.free before

/-- Storing under the key works. -/
theorem putBytes_isOk (takes : s.Takes k) (b : Bytes) : (s.putBytes k b).2.2.isOk = true := by
  obtain ⟨place, max⟩ := s
  obtain ⟨fit, open_, free⟩ := takes
  cases place with
  | blocked => exact absurd rfl open_
  | absent =>
    simp [Store.putBytes, put, write, create, Draft.ofBytes, Draft.payload?, putFile, fit, entry?,
      Except.isOk, Except.toBool]
  | folder es =>
    have free : entry? es k.name ≠ some .folder := free
    cases held : entry? es k.name with
    | none =>
      simp [Store.putBytes, put, write, create, Draft.ofBytes, Draft.payload?, putFile, fit, held,
        Except.isOk, Except.toBool]
    | some node =>
      cases node with
      | folder => exact absurd held free
      | file content =>
        simp [Store.putBytes, put, write, create, Draft.ofBytes, Draft.payload?, putFile, fit,
          held, Except.isOk, Except.toBool]

/-- Nothing is left under the key once it was deleted. -/
theorem delete_lacks (takes : s.Takes k) : (s.delete k).1.Lacks k := by
  cases found : s.place.openFile k.name with
  | error e => exact delete_lacks_of_lacks k fun node there => by cases found.symm.trans there
  | ok node =>
    cases node with
    | folder => exact absurd (openFile_eq_ok_iff.mp found).2 takes.free
    | file content => exact Store.delete_lacks found

/-- Looking for what is not there finds nothing, and that is no failure. -/
theorem loadBytes (takes : s.Takes k) (lacks : s.Lacks k) : s.loadBytes k = ([], .ok none) := by
  have missing : s.place.openFile k.name = .error .notFound := by
    obtain ⟨place, max⟩ := s
    obtain ⟨fit, open_, _⟩ := takes
    cases place with
    | absent => rfl
    | blocked => exact absurd rfl open_
    | folder es =>
      cases held : entry? es k.name with
      | none => simp [openFile, fit, held]
      | some node =>
        have there : (folder es).openFile k.name = .ok node := openFile_eq_ok_iff.mpr ⟨fit, held⟩
        exact absurd there (lacks node)
  simp [Store.loadBytes, load, missing]

/-- Deleting leaves the other entries, whether there was a file or not. -/
theorem entries_delete (takes : s.Takes k) :
    (s.delete k).1.place.entries = without s.place.entries k.name := by
  obtain ⟨place, max⟩ := s
  cases place with
  | absent | blocked => rfl
  | folder es =>
    have fit := takes.fit
    cases held : entry? es k.name with
    | none => simp [Store.delete, removeFile, fit, held, entries, without_of_missing held]
    | some node =>
      cases node with
      | folder => exact absurd held takes.free
      | file content => simp [Store.delete, removeFile, fit, held, entries]

/-- A payload is written and the quota enforced. -/
theorem putBytes_eq (takes : s.Takes k) (b : Bytes) : ∃ reports, s.putBytes k b =
    (((s.written k b).enforce s.maxEntries).1, reports,
      .ok ((s.written k b).enforce s.maxEntries).2.2) := by
  rcases s.putBytes_eq k b with ⟨_, done⟩ | ⟨⟨e, failed⟩, _⟩
  · exact done
  · have ok := takes.putBytes_isOk b
    rw [failed] at ok
    cases ok

end Takes

/-! ## Writers -/

theorem maxEntries_delete (s : Store) (k : Key) : (s.delete k).1.maxEntries = s.maxEntries := by
  unfold delete
  split <;> rfl

/-- A writer that finishes stores the bytes it wrote. -/
theorem put_eq_putBytes {draft : Draft} (finished : draft.payload? = .ok b) :
    s.put k draft = s.putBytes k b := by
  have same : draft.payload? = (Draft.ofBytes b).payload? := by
    rw [finished]
    simp [Draft.ofBytes, Draft.payload?]
  simp only [putBytes, put, write, same]

/-- A writer that does not finish leaves the files as they are. -/
theorem put_of_error {draft : Draft} {e : StoreError} (failed : draft.payload? = .error e)
    (s : Store) (k : Key) : (s.put k draft).2.2.isOk = false ∧
      (s.put k draft).1.maxEntries = s.maxEntries ∧
      (s.put k draft).1.place.entries = s.place.entries := by
  obtain ⟨place, max⟩ := s
  cases place <;> simp [put, write, create, failed, entries, Except.isOk, Except.toBool]

/-- If files can be written, why the writer did not finish is what is returned. -/
theorem put_of_error_of_open {draft : Draft} {e : StoreError} (failed : draft.payload? = .error e)
    (open_ : s.place ≠ .blocked) :
    (s.put k draft).2.2 = .error e ∧ (s.put k draft).1.place ≠ .blocked := by
  obtain ⟨place, max⟩ := s
  cases place with
  | blocked => exact absurd rfl open_
  | absent | folder es => simp [put, write, create, failed]

end Outbox.Storage.Store
