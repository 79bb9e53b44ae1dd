import Outbox.Proofs.StoreEntries

/-! # A failed store leaves no trace

A payload is written to the side, into a file with a name that no stored payload has, and that file
is moved into place when it is whole. Each of these steps can fail, and so can the writer. Whatever
fails, the file at the side is taken away and the directory is as it was, and the failure is
reported once. Where nothing but the directory itself stands in the way, writing to the side comes
to the same as `Store.write`, which does not show the file at the side.
-/

namespace Outbox.Storage

namespace Place

variable {es : List (String × Node)} {name other : String}

/-- Makes an empty file under a name that is free. -/
def createFile (p : Place) (name : String) : Except FileError Place :=
  match p with
  | absent => .error .notFound
  | blocked => .error .notADirectory
  | folder entries =>
    if !fits name then .error .invalidName
    else
      match entry? entries name with
      | some _ => .error .alreadyExists
      | none => .ok (folder (entries ++ [(name, .file (.raw []))]))

/-- Writes a file over. -/
def rewrite (p : Place) (name : String) (content : Content) : Place :=
  match p with
  | absent => absent
  | blocked => blocked
  | folder entries => folder (withEntry entries name (.file content))

/-- Moves a file to another name, in place of the file that is there. -/
def rename (p : Place) (name target : String) : Except FileError Place :=
  match p with
  | absent => .error .notFound
  | blocked => .error .notADirectory
  | folder entries =>
    if !fits target then .error .invalidName
    else
      match entry? entries name, entry? entries target with
      | none, _ => .error .notFound
      | some _, some .folder => .error .isADirectory
      | some node, _ => .ok (folder (withEntry (without entries name) target node))

/-- Takes a file away. Nobody asks whether that worked. -/
def discard (p : Place) (name : String) : Place :=
  match p.removeFile name with
  | .ok p => p
  | .error _ => p

/-- The directory with one more file, the last one. -/
def beside (es : List (String × Node)) (name : String) (content : Content) : Place :=
  folder (es ++ [(name, .file content)])

/-! A file under a name that was free can be written over, moved and taken away, and the other
entries are as they were. -/

theorem entry?_append_self (free : entry? es name = none) (node : Node) :
    entry? (es ++ [(name, node)]) name = some node := by
  unfold entry? at free ⊢
  rw [List.lookup_append, free]
  simp

theorem entry?_append_of_ne (differ : name ≠ other) (node : Node) :
    entry? (es ++ [(other, node)]) name = entry? es name := by
  have apart : (name == other) = false := beq_eq_false_iff_ne.mpr differ
  unfold entry?
  rw [List.lookup_append, List.lookup_cons, apart, List.lookup_nil, Option.or_none]

theorem without_append_self (free : entry? es name = none) (node : Node) :
    without (es ++ [(name, node)]) name = es := by
  have same : without es name = es := Store.without_of_missing free
  unfold without at same ⊢
  rw [List.filter_append, same]
  simp

theorem createFile_eq (fit : fits name = true) (free : entry? es name = none) :
    (folder es).createFile name = .ok (beside es name (.raw [])) := by
  simp [createFile, fit, free, beside]

theorem rewrite_beside (free : entry? es name = none) (old new : Content) :
    (beside es name old).rewrite name new = beside es name new := by
  simp [beside, rewrite, withEntry, without_append_self free]

theorem discard_beside (fit : fits name = true) (free : entry? es name = none)
    (content : Content) : (beside es name content).discard name = folder es := by
  simp [beside, discard, removeFile, fit, entry?_append_self free, without_append_self free]

/-- To move a whole file into place is to put it there. -/
theorem rename_beside (free : entry? es name = none) (differ : other ≠ name) (content : Content) :
    (beside es name content).rename name other = (folder es).putFile other content := by
  simp only [beside, rename, putFile, entry?_append_self free, entry?_append_of_ne differ,
    without_append_self free]
  cases fits other with
  | false => rfl
  | true =>
    cases entry? es other with
    | none => rfl
    | some node => cases node <;> rfl

theorem create_eq_ok {p made : Place} (created : p.create = .ok made) :
    p ≠ .blocked ∧ made = .folder p.entries := by
  cases p with
  | blocked => cases created
  | absent | folder es =>
    cases created
    exact ⟨by simp, rfl⟩

end Place

open Place

/-! ## Writing to the side -/

/-- A step of writing at which the file system can fail. -/
inductive WriteStep where
  | folder
  | scratch
  | compress
  | flush
  | sync
  | rename
  deriving Repr, DecidableEq

/-- What is being done in a step. -/
def WriteStep.doing : WriteStep → String
  | folder => "create storage directory"
  | scratch => "create temp file"
  | compress => "finish compression"
  | flush => "flush payload"
  | sync => "sync payload"
  | rename => "rename payload into place"

/-- The file at the side, and what the file system does that the entries of the directory do not
tell: where it fails, and what it has written after each chunk. -/
structure Scratch where
  name : String
  fault : WriteStep → Option FileError
  written : Nat → Content

namespace Scratch

variable {x : Scratch} {place : Place} {k : Key} {draft : Draft}

/-- The file system fails nowhere, unless the directory makes it. -/
def Sound (x : Scratch) : Prop := ∀ step, x.fault step = none

/-- The name is one of files at the side, and it is free. -/
structure Fresh (x : Scratch) (place : Place) : Prop where
  temporary : Store.isTemporary x.name = true
  fit : fits x.name = true
  free : entry? place.entries x.name = none

/-- A step with this result, unless the file system fails at it. -/
def does {α : Type} (x : Scratch) (step : WriteStep) (result : Except FileError α) :
    Except StoreError α :=
  match x.fault step, result with
  | some e, _ | none, .error e => .error (.file step.doing e)
  | none, .ok a => .ok a

/-- The writer writes, and what it wrote gets to the disk. -/
def complete (x : Scratch) (draft : Draft) : Except StoreError Bytes := do
  let payload ← draft.payload?
  x.does .compress (.ok ())
  x.does .flush (.ok ())
  x.does .sync (.ok payload)

/-- Writes a payload to the side and moves it into place: the directory after each change, the
latest last, and whether it worked. -/
def write (x : Scratch) (place : Place) (k : Key) (draft : Draft) :
    List Place × Except StoreError Unit :=
  match x.does .folder place.create with
  | .error e => ([], .error e)
  | .ok made =>
    match x.does .scratch (made.createFile x.name) with
    | .error e => ([made], .error e)
    | .ok scratch =>
      let filling (n : Nat) : Place := scratch.rewrite x.name (x.written n)
      let before := made :: scratch :: (List.range (draft.chunks.length + 1)).map filling
      match x.complete draft with
      | .error e => (before ++ [(filling draft.chunks.length).discard x.name], .error e)
      | .ok payload =>
        let whole := (filling draft.chunks.length).rewrite x.name (.gzip payload)
        match x.does .rename (whole.rename x.name k.name) with
        | .error e => (before ++ [whole, whole.discard x.name], .error e)
        | .ok done => (before ++ [whole, done], .ok ())

/-- The directory in the end. -/
def left (place : Place) (changes : List Place) : Place := changes.getLast?.getD place

theorem left_concat (place : Place) (changes : List Place) (p : Place) :
    left place (changes ++ [p]) = p := by
  simp [left]

theorem left_two (place : Place) (changes : List Place) (p q : Place) :
    left place (changes ++ [p, q]) = q := by
  simp [left]

theorem Fresh.ne (fresh : x.Fresh place) (k : Key) : k.name ≠ x.name := by
  intro same
  have temporary := fresh.temporary
  rw [← same, Store.isTemporary_name] at temporary
  cases temporary

theorem does_of_sound {α : Type} (sound : x.Sound) (step : WriteStep) (a : α) :
    x.does step (.ok a) = .ok a := by
  simp [does, sound step]

theorem does_eq_ok {α : Type} {step : WriteStep} {result : Except FileError α} {a : α}
    (done : x.does step result = .ok a) : result = .ok a := by
  unfold does at done
  split at done <;> simp_all

theorem complete_of_sound (sound : x.Sound) (draft : Draft) :
    x.complete draft = draft.payload? := by
  unfold complete
  cases draft.payload? with
  | error e => rfl
  | ok payload => simp [does_of_sound sound, bind, Except.bind]

theorem does_of_error {α : Type} (sound : x.Sound) (step : WriteStep) (e : FileError) :
    x.does step (.error e : Except FileError α) = .error (.file step.doing e) := by
  simp [does, sound step]

/-- Where nothing fails but what the entries of the directory make fail, a payload is written as if
there was no file at the side. -/
theorem write_eq (sound : x.Sound) (fresh : x.Fresh place) (k : Key) (draft : Draft) :
    Store.write place k draft =
      (left place (x.write place k draft).1, (x.write place k draft).2) := by
  unfold Store.write write
  cases created : place.create with
  | error e => simp only [does_of_error sound, left, List.getLast?_nil]; rfl
  | ok made =>
    obtain ⟨_, rfl⟩ := create_eq_ok created
    have free := fresh.free
    simp only [does_of_sound sound, createFile_eq fresh.fit free, complete_of_sound sound,
      rewrite_beside free, discard_beside fresh.fit free, rename_beside free (fresh.ne k)]
    cases draft.payload? with
    | error e => simp only [left_concat]
    | ok payload =>
      cases placed : (folder place.entries).putFile k.name (.gzip payload) with
      | error e => simp only [placed, does_of_error sound, left_two, WriteStep.doing]
      | ok done => simp only [placed, does_of_sound sound, left_two]

/-- Nothing in the directory is changed, but for the file at the side, if it is there. -/
def Aside (x : Scratch) (place p : Place) : Prop :=
  p = .folder place.entries ∨ ∃ content, p = beside place.entries x.name content

/-- All that writing can do. -/
inductive Writes (x : Scratch) (place : Place) : List Place × Except StoreError Unit → Prop where
  /-- There is no directory, and none could be made. -/
  | refuses {e : StoreError} : Writes x place ([], .error e)
  /-- Something failed later, and the file at the side was taken away, if there was one. -/
  | undoes {before : List Place} {e : StoreError} (open_ : place ≠ .blocked)
      (aside : ∀ p ∈ before, x.Aside place p) :
      Writes x place (before ++ [.folder place.entries], .error e)
  | writes {before : List Place} {done : Place} (aside : ∀ p ∈ before, x.Aside place p) :
      Writes x place (before ++ [done], .ok ())

theorem write_writes (fresh : x.Fresh place) (k : Key) (draft : Draft) :
    x.Writes place (x.write place k draft) := by
  have free := fresh.free
  unfold write
  split
  case h_1 => exact .refuses
  case h_2 made created =>
    obtain ⟨open_, rfl⟩ := create_eq_ok (does_eq_ok created)
    split
    case h_1 =>
      have before : ∀ p ∈ ([] : List Place), x.Aside place p := by simp
      exact .undoes open_ before
    case h_2 scratch opened =>
      have opened := does_eq_ok opened
      rw [createFile_eq fresh.fit free] at opened
      cases opened
      simp only [rewrite_beside free, discard_beside fresh.fit free]
      -- until the file is moved, there is the directory and, at times, the file at the side
      have filling (n : Nat) : x.Aside place (beside place.entries x.name (x.written n)) :=
        .inr ⟨_, rfl⟩
      have before : ∀ p ∈ folder place.entries :: beside place.entries x.name (.raw []) ::
          (List.range (draft.chunks.length + 1)).map fun n =>
            beside place.entries x.name (x.written n), x.Aside place p :=
        List.forall_mem_cons.mpr ⟨.inl rfl, List.forall_mem_cons.mpr
          ⟨.inr ⟨_, rfl⟩, List.forall_mem_map.mpr fun n _ => filling n⟩⟩
      split
      case h_1 => exact .undoes open_ before
      case h_2 payload _ =>
        have whole : ∀ p ∈ [beside place.entries x.name (.gzip payload)], x.Aside place p :=
          List.forall_mem_singleton.mpr (.inr ⟨_, rfl⟩)
        have before := List.forall_mem_append.mpr ⟨before, whole⟩
        split
        case h_1 =>
          simpa using Writes.undoes open_ before
        case h_2 done _ =>
          have wrote : x.Writes place (_ ++ [done], .ok ()) := .writes before
          simpa using wrote

/-- If a payload could not be written, in the end the directory is what it was, or it is a new one
without any file. -/
theorem Writes.left_of_error {changes : List Place} {e : StoreError}
    (did : x.Writes place (changes, .error e)) :
    (∀ p ∈ changes, x.Aside place p) ∧
      (left place changes = place ∨ (place = .absent ∧ left place changes = .folder [])) := by
  cases did with
  | refuses => exact ⟨by simp, .inl rfl⟩
  | undoes open_ aside =>
    refine ⟨List.forall_mem_append.mpr ⟨aside, List.forall_mem_singleton.mpr (.inl rfl)⟩, ?_⟩
    rw [left_concat]
    cases place with
    | absent => exact .inr ⟨rfl, rfl⟩
    | blocked => exact absurd rfl open_
    | folder es => exact .inl rfl

end Scratch

/-! ## Storing -/

namespace Store

variable {s : Store} {k : Key} {draft : Draft} {e : StoreError} {place : Place}

/-- What becomes of a store when a payload was written, or could not be. -/
def settle (s : Store) (k : Key) :
    Place × Except StoreError Unit → Store × List Report × Except StoreError (List Key)
  | (place, .error e) => ({ s with place }, [failure .payloadStoreFail "store" k e], .error e)
  | (place, .ok ()) =>
    let (s, reports, pruned) := ({ s with place } : Store).enforce s.maxEntries
    (s, reports, .ok pruned)

/-- Stores a payload by way of this file at the side. -/
def putAside (x : Scratch) (s : Store) (k : Key) (draft : Draft) :
    Store × List Report × Except StoreError (List Key) :=
  s.settle k (Scratch.left s.place (x.write s.place k draft).1, (x.write s.place k draft).2)

/-- Storing failed for this reason, and there is no trace of it but the report: the store is as it
was, or has a new directory without any file, and each payload that was there can be loaded. -/
structure Traceless (s : Store) (k : Key) (e : StoreError)
    (stored : Store × List Report × Except StoreError (List Key)) : Prop where
  same : stored.1 = s ∨ (s.place = .absent ∧ stored.1 = ⟨.folder [], s.maxEntries⟩)
  loads : ∀ l b, (s.loadBytes l).2 = .ok (some b) → (stored.1.loadBytes l).2 = .ok (some b)
  reports : stored.2.1 = [failure .payloadStoreFail "store" k e]

theorem put_eq_settle (s : Store) (k : Key) (draft : Draft) :
    s.put k draft = s.settle k (write s.place k draft) := by
  unfold put settle
  rcases write s.place k draft with ⟨place, _ | _⟩ <;> rfl

theorem settle_eq_error {written : Place × Except StoreError Unit}
    (failed : (s.settle k written).2.2 = .error e) : written = (written.1, .error e) := by
  rcases written with ⟨place, cause | done⟩
  · cases failed
    rfl
  · cases failed

theorem loadBytes_of_absent (absent : s.place = .absent) (l : Key) :
    (s.loadBytes l).2 = .ok none := by
  simp [loadBytes, load, absent, openFile]

theorem traceless_settle (same : place = s.place ∨ (s.place = .absent ∧ place = .folder [])) :
    s.Traceless k e (s.settle k (place, .error e)) where
  same := by
    rcases same with rfl | ⟨absent, rfl⟩
    · exact .inl rfl
    · exact .inr ⟨absent, rfl⟩
  loads l b found := by
    rcases same with rfl | ⟨absent, rfl⟩
    · exact found
    · rw [loadBytes_of_absent absent] at found
      cases found
  reports := rfl

/-- A directory that was made for a payload stays when the payload could not be written. -/
theorem write_of_error (failed : (write place k draft).2 = .error e) :
    (write place k draft).1 = place ∨
      (place = .absent ∧ (write place k draft).1 = .folder []) := by
  cases place with
  | blocked => exact .inl rfl
  | absent | folder es =>
    simp only [write, create] at failed ⊢
    split
    · simp
    split
    · simp
    · simp_all

/-- Storing that fails leaves no trace.

If storing a payload fails, the store is as it was, files, names and all, except that an empty
directory may have been made where there was nothing. So no file was deleted for the quota, a
payload that was stored earlier under the same key or another one is still there, and the one report
says which payload could not be stored and why.

It comes to the same when the payload is written to the side, in a file with a name that is free,
and moved into place. At no moment is there more in the directory than it had and that file, and
whichever step fails, by the directory, the writer or the disk, that file is gone in the end. -/
theorem no_trace_of_failure (s : Store) (k : Key) (draft : Draft) :
    (∀ e, (s.put k draft).2.2 = .error e → s.Traceless k e (s.put k draft)) ∧
      ∀ x : Scratch, x.Fresh s.place →
        (x.Sound → s.putAside x k draft = s.put k draft) ∧
        ∀ e, (s.putAside x k draft).2.2 = .error e →
          s.Traceless k e (s.putAside x k draft) ∧
          (∀ p ∈ (x.write s.place k draft).1, x.Aside s.place p) ∧
          entry? (s.putAside x k draft).1.place.entries x.name = none := by
  refine ⟨fun e failed => ?_, fun x fresh => ⟨fun sound => ?_, fun e failed => ?_⟩⟩
  · rw [put_eq_settle] at failed ⊢
    have written := settle_eq_error failed
    rw [written]
    exact traceless_settle (write_of_error (congrArg Prod.snd written))
  · rw [put_eq_settle, Scratch.write_eq sound fresh]
    rfl
  · have did := Scratch.write_writes fresh k draft
    simp only [putAside] at failed ⊢
    generalize x.write s.place k draft = written at did failed ⊢
    obtain ⟨changes, result⟩ := written
    obtain rfl : result = .error e := congrArg Prod.snd (settle_eq_error failed)
    obtain ⟨aside, same⟩ := did.left_of_error
    refine ⟨traceless_settle same, aside, ?_⟩
    rcases same with same | ⟨absent, made⟩
    · exact (congrArg (fun p => entry? p.entries x.name) same).trans fresh.free
    · exact congrArg (fun p => entry? p.entries x.name) made

/-- A store that has more than its quota: a writer panics over a payload that is there, and then the
disk is full when another writer has finished. -/
theorem no_trace_of_failure_of_panic :
    let log : Key := ⟨5, .log, "a", rfl⟩
    let s : Store := ⟨.folder [(log.name, .file (.gzip [9])),
      ("1_crash_b_v1.gz", .file (.gzip [7]))], 1⟩
    let draft : Draft := ⟨[[1], [2]], .panicked (.text "Whoops!")⟩
    let x : Scratch := ⟨".tmp-a1B2c3", fun _ => none, fun n => .raw (List.replicate n 0)⟩
    let full : Scratch :=
      { x with fault := fun step => if step = .sync then some (.other "disk full") else none }
    x.Fresh s.place ∧ x.Sound ∧ full.Fresh s.place ∧
      s.putAside x log draft = s.put log draft ∧ (s.put log draft).1 = s ∧
      ((s.put log draft).1.loadBytes log).2 = .ok (some [9]) ∧
      (s.put log draft).2.1 =
        [⟨.payloadStoreFail, "Failed to store payload 5_log_a_v1.gz",
          some (.error "payload writer panicked: Whoops!")⟩] ∧
      (s.putAside full log ⟨[[1]], .finished⟩).1 = s ∧
      (s.putAside full log ⟨[[1]], .finished⟩).2.1 =
        [⟨.payloadStoreFail, "Failed to store payload 5_log_a_v1.gz",
          some (.error "sync payload: disk full")⟩] := by
  intro log s draft x full
  have fresh : x.Fresh s.place := ⟨by decide +kernel, by decide +kernel, by decide +kernel⟩
  have fresh' : full.Fresh s.place := ⟨fresh.temporary, fresh.fit, fresh.free⟩
  have sound : x.Sound := fun _ => rfl
  obtain ⟨untraced, aside⟩ := no_trace_of_failure s log draft
  obtain ⟨_, aside'⟩ := no_trace_of_failure s log ⟨[[1]], .finished⟩
  have panicked := untraced (.writerPanicked "Whoops!") rfl
  have failed := ((aside' full fresh').2 (.file "sync payload" (.other "disk full"))
    (by decide +kernel)).1
  refine ⟨fresh, sound, fresh', (aside x fresh).1 sound, ?_, ?_, ?_, ?_, ?_⟩
  · exact panicked.same.resolve_right fun ⟨missing, _⟩ => by cases missing
  · exact panicked.loads log [9] (by decide +kernel)
  · rw [panicked.reports]
    decide +kernel
  · exact failed.same.resolve_right fun ⟨missing, _⟩ => by cases missing
  · rw [failed.reports]
    decide +kernel

end Store

end Outbox.Storage
