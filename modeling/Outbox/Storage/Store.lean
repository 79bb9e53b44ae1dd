import Outbox.Diagnostic
import Outbox.Storage.Directory
import Outbox.Storage.Key

/-! # The payload store

A directory of compressed payloads with room for a limited number of them. A payload is written to
the side and moved into place, so that a name stands for a whole payload or for the one before it.
When there are too many, the least important and oldest go. What fails is reported and returned.
-/

namespace Outbox.Storage

/-- Why the store did not do what it was asked for. -/
inductive StoreError where
  /-- The file system refused; `context` says what was being done. -/
  | file (context : String) (error : FileError)
  | writer (message : String)
  | writerPanicked (message : String)
  deriving Repr, DecidableEq

def StoreError.message : StoreError → String
  | file context error => context ++ ": " ++ error.name
  | writer message => "payload writer failed: " ++ message
  | writerPanicked message => "payload writer panicked: " ++ message

def StoreError.source? : StoreError → Option String
  | file _ error => some error.name
  | writer message => some message
  | writerPanicked _ => none

/-- How the writer of a payload ends. -/
inductive WriterEnd where
  | finished
  | failed (message : String)
  | panicked (p : Panic)
  deriving Repr, DecidableEq

/-- What a writer does: it writes chunks and ends in some way. -/
structure Draft where
  chunks : List Bytes
  ending : WriterEnd
  deriving Repr, DecidableEq

def Draft.ofBytes (b : Bytes) : Draft := ⟨[b], .finished⟩

/-- The payload that a writer wrote, or why there is none. -/
def Draft.payload? (d : Draft) : Except StoreError Bytes :=
  match d.ending with
  | .finished => .ok d.chunks.flatten
  | .failed message => .error (.writer message)
  | .panicked p => .error (.writerPanicked p.message)

/-- A store. -/
structure Store where
  place : Place
  maxEntries : Nat
  deriving Repr, DecidableEq

namespace Store

/-- The message of every report about deleted payloads. -/
def pruneMessage : String := "Pruned payload storage"

def failure (kind : DiagnosticKind) (doing : String) (key : Key) (e : StoreError) : Report :=
  ⟨kind, "Failed to " ++ doing ++ " payload " ++ key.name, some (.error e.message)⟩

/-- The directory after writing a payload, and whether that worked. A directory that was made for
    it stays. -/
def write (place : Place) (key : Key) (draft : Draft) : Place × Except StoreError Unit :=
  match place.create with
  | .error e => (place, .error (.file "create storage directory" e))
  | .ok place =>
    match draft.payload? with
    | .error e => (place, .error e)
    | .ok payload =>
      match place.putFile key.name (.gzip payload) with
      | .error e => (place, .error (.file "rename payload into place" e))
      | .ok place => (place, .ok ())

/-- Whether a name is one of a file that is still being written. -/
def isTemporary (name : String) : Bool := ".tmp-".toList.isPrefixOf name.toList

def keyOf? (name : String) : Option Key :=
  if isTemporary name then none
  else
    match Key.ofName? name with
    | .ok key => some key
    | .error _ => none

/-- The keys of the stored payloads in the order of listing. Files of other origin are passed
    over. -/
def stored (s : Store) : List Key × List Report :=
  match s.place.names with
  | .ok names => (Key.sortNatural (names.filterMap keyOf?), [])
  | .error .notFound => ([], [])
  | .error e =>
    let e := StoreError.file "list payloads" e
    ([], [⟨.payloadLoadFail, "Failed to list payload storage", some (.error e.message)⟩])

/-- Deletes a payload. That there is none is no failure. -/
def delete (s : Store) (key : Key) : Store × List Report :=
  match s.place.removeFile key.name with
  | .ok place => ({ s with place }, [])
  | .error .notFound => (s, [])
  | .error e => (s, [failure .payloadDeleteFail "delete" key (.file "delete payload" e)])

def deleteAll (s : Store) : List Key → Store × List Report
  | [] => (s, [])
  | key :: keys =>
    let (s, first) := s.delete key
    let (s, others) := s.deleteAll keys
    (s, first ++ others)

/-- Deletes what exceeds the quota: of the payloads in the order of keeping, the ones after the
    first `max`. -/
def enforce (s : Store) (max : Nat) : Store × List Report × List Key :=
  let (keys, listing) := s.stored
  if keys.length ≤ max then (s, listing, [])
  else
    let pruned := (Key.sortRetention keys).drop max
    let (s, deleting) := s.deleteAll pruned
    (s, listing ++ deleting ++ [⟨.payloadPruned, pruneMessage, none⟩], pruned)

/-- Stores what a writer writes, in place of the payload with the same key, and deletes what
    exceeds the quota then. The deleted keys are returned; the new one may be among them. -/
def put (s : Store) (key : Key) (draft : Draft) :
    Store × List Report × Except StoreError (List Key) :=
  match write s.place key draft with
  | (place, .error e) =>
    ({ s with place }, [failure .payloadStoreFail "store" key e], .error e)
  | (place, .ok ()) =>
    let (s, reports, pruned) := ({ s with place } : Store).enforce s.maxEntries
    (s, reports, .ok pruned)

def putBytes (s : Store) (key : Key) (b : Bytes) :
    Store × List Report × Except StoreError (List Key) :=
  s.put key (.ofBytes b)

/-- Opens a payload for reading, if there is one. -/
def load (s : Store) (key : Key) : List Report × Except StoreError (Option Node) :=
  match s.place.openFile key.name with
  | .ok node => ([], .ok (some node))
  | .error .notFound => ([], .ok none)
  | .error e =>
    let e := StoreError.file "open payload" e
    ([failure .payloadLoadFail "load" key e], .error e)

def loadBytes (s : Store) (key : Key) : List Report × Except StoreError (Option Bytes) :=
  match s.load key with
  | (reports, .error e) => (reports, .error e)
  | (reports, .ok none) => (reports, .ok none)
  | (reports, .ok (some node)) =>
    match node.payload? with
    | .ok b => (reports, .ok (some b))
    | .error e =>
      let e := StoreError.file "decompress payload" e
      (reports ++ [failure .payloadLoadFail "read" key e], .error e)

def usage (s : Store) : Nat × List Report :=
  let (keys, reports) := s.stored
  let size (key : Key) : Nat :=
    match s.place.openFile key.name with
    | .ok (.file content) => content.size
    | .ok .folder => 4096
    | .error _ => 0
  (keys.foldl (fun n key => n + size key) 0, reports)

end Store

end Outbox.Storage
