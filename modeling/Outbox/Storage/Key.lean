import Outbox.Kind
import Outbox.Text.Decimal

/-! # Storage keys

Every stored payload is a file, and its name is all that the storage knows about it:
`<timestamp>_<kind>_<id>_v1.gz`. The id comes last because it may hold any character that a file
name may, separators included.
-/

namespace Outbox.Storage

def keySuffix : List Char := "_v1.gz".toList

/-- The characters that an id must not hold: separators of a path, and the end of a C string. -/
def isForbidden (c : Char) : Bool := c == '/' || c == '\\' || c == '\x00'

def validId (id : String) : Bool := !id.toList.isEmpty && !id.toList.any isForbidden

/-- Why a name is no storage key. -/
inductive KeyError where
  | missingSuffix (name : String)
  /-- It has too few parts; `field` is the first one that is missing. -/
  | missingField (name : String) (field : String)
  | invalidTimestamp (part : String)
  | unknownKind (part : String)
  | invalidId (part : String)
  deriving Repr, DecidableEq

def KeyError.message : KeyError → String
  | missingSuffix name => "storage key '" ++ name ++ "' lacks suffix " ++ String.ofList keySuffix
  | missingField name field => "storage key '" ++ name ++ "' is missing " ++ field
  | invalidTimestamp part => "invalid timestamp '" ++ part ++ "' in storage key"
  | unknownKind part => "unknown telemetry kind '" ++ part ++ "' in storage key"
  | invalidId part => "invalid uuid '" ++ part ++ "' in storage key"

/-- Names one stored payload. -/
structure Key where
  timestamp : Millis
  kind : Kind
  id : String
  valid : validId id = true
  deriving DecidableEq

namespace Key

instance : Repr Key where
  reprPrec k n := reprPrec (k.timestamp, k.kind, k.id) n

@[ext]
theorem ext {a b : Key} (h₁ : a.timestamp = b.timestamp) (h₂ : a.kind = b.kind)
    (h₃ : a.id = b.id) : a = b := by
  cases a
  cases b
  simp_all

/-- The key with these parts, unless the id cannot stand in a file name. -/
def make (timestamp : Millis) (kind : Kind) (id : String) : Except KeyError Key :=
  if h : validId id = true then .ok ⟨timestamp, kind, id, h⟩ else .error (.invalidId id)

def chars (k : Key) : List Char :=
  Text.Decimal.ofInt k.timestamp.val ++ '_' :: k.kind.name.toList ++ '_' :: k.id.toList ++ keySuffix

def name (k : Key) : String := String.ofList k.chars

/-- What stands before the first separator and after it. -/
def cut : List Char → Option (List Char × List Char)
  | [] => none
  | c :: cs => if c = '_' then some ([], cs) else (cut cs).map fun (a, b) => (c :: a, b)

def stem? (cs : List Char) : Option (List Char) :=
  if keySuffix.isSuffixOf cs then some (cs.take (cs.length - keySuffix.length)) else none

def ofName? (name : String) : Except KeyError Key :=
  match stem? name.toList with
  | none => .error (.missingSuffix name)
  | some stem =>
    match cut stem with
    | none => .error (.missingField name "kind")
    | some (time, rest) =>
      match cut rest with
      | none => .error (.missingField name "uuid")
      | some (kind, id) =>
        match Text.Decimal.readRanged? time with
        | none => .error (.invalidTimestamp (String.ofList time))
        | some timestamp =>
          match Kind.ofName? (String.ofList kind) with
          | none => .error (.unknownKind (String.ofList kind))
          | some kind => make timestamp kind (String.ofList id)

/-! ## Orders -/

def compareText (a b : String) : Ordering := compareOfLessAndEq a b

/-- The order of listing: by importance, then the oldest first, then by id. -/
def naturalOrder (a b : Key) : Ordering :=
  (compare a.kind.rank b.kind.rank).then
    ((compare a.timestamp.val b.timestamp.val).then (compareText a.id b.id))

/-- The order of keeping: by importance, then the newest first, then by id. -/
def retentionOrder (a b : Key) : Ordering :=
  (compare a.kind.rank b.kind.rank).then
    ((compare b.timestamp.val a.timestamp.val).then (compareText a.id b.id))

/-- The keys in the order of listing. Equal keys stay in their order. -/
def sortNatural (keys : List Key) : List Key :=
  keys.mergeSort fun a b => (naturalOrder a b).isLE

/-- The keys in the order of keeping. Equal keys stay in their order. -/
def sortRetention (keys : List Key) : List Key :=
  keys.mergeSort fun a b => (retentionOrder a b).isLE

end Key

end Outbox.Storage
