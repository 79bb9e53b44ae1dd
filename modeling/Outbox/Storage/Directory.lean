import Outbox.Gzip.Member

/-! # Directories

The part of the file system that a store works in: one path, at which there may be nothing, a plain
file, or a directory. A compressed file is described by what it holds, because its bytes depend on
the compressor and nobody looks at them; a file of any other origin is described by its bytes.
-/

namespace Outbox.Storage

/-- Why an operation on files failed. -/
inductive FileError where
  | corrupt
  | notFound
  | isADirectory
  | notADirectory
  | alreadyExists
  | invalidName
  | other (message : String)
  deriving Repr, DecidableEq

def FileError.name : FileError → String
  | corrupt => "corrupt"
  | notFound => "NotFound"
  | isADirectory => "IsADirectory"
  | notADirectory => "NotADirectory"
  | alreadyExists => "AlreadyExists"
  | invalidName => "InvalidFilename"
  | other message => message

/-- What a file holds. -/
inductive Content where
  | gzip (payload : Bytes)
  | raw (bytes : Bytes)
  deriving Repr, DecidableEq

namespace Content

def payload? : Content → Except FileError Bytes
  | gzip payload => .ok payload
  | raw bytes =>
    match Gzip.decode? bytes with
    | some payload => .ok payload
    | none => .error .corrupt

/-- A number of bytes that the file takes. A compressed payload is taken to be stored as it is,
    with a header and a checksum. -/
def size : Content → Nat
  | gzip payload => payload.length + 23
  | raw bytes => bytes.length

end Content

/-- What a directory has under a name. -/
inductive Node where
  | file (content : Content)
  | folder
  deriving Repr, DecidableEq

/-- What is at the path of a store. -/
inductive Place where
  | absent
  /-- A file. -/
  | blocked
  | folder (entries : List (String × Node))
  deriving Repr, DecidableEq

def maxNameBytes : Nat := 255

def fits (name : String) : Bool := name.utf8ByteSize ≤ maxNameBytes

namespace Place

def entry? (entries : List (String × Node)) (name : String) : Option Node := entries.lookup name

def without (entries : List (String × Node)) (name : String) : List (String × Node) :=
  entries.filter fun e => e.1 != name

/-- The entries with another one under this name. -/
def withEntry (entries : List (String × Node)) (name : String) (node : Node) :
    List (String × Node) :=
  without entries name ++ [(name, node)]

def create : Place → Except FileError Place
  | absent => .ok (folder [])
  | blocked => .error .alreadyExists
  | folder entries => .ok (folder entries)

/-- Puts a finished file under a name, in place of the file that is there. -/
def putFile (p : Place) (name : String) (content : Content) : Except FileError Place :=
  match p with
  | absent => .error .notFound
  | blocked => .error .notADirectory
  | folder entries =>
    if !fits name then .error .invalidName
    else
      match entry? entries name with
      | some .folder => .error .isADirectory
      | _ => .ok (folder (withEntry entries name (.file content)))

/-- What is under a name. Opening a directory succeeds, reading it does not. -/
def openFile (p : Place) (name : String) : Except FileError Node :=
  match p with
  | absent => .error .notFound
  | blocked => .error .notADirectory
  | folder entries =>
    if !fits name then .error .invalidName
    else
      match entry? entries name with
      | some node => .ok node
      | none => .error .notFound

def removeFile (p : Place) (name : String) : Except FileError Place :=
  match p with
  | absent => .error .notFound
  | blocked => .error .notADirectory
  | folder entries =>
    if !fits name then .error .invalidName
    else
      match entry? entries name with
      | some (.file _) => .ok (folder (without entries name))
      | some .folder => .error .isADirectory
      | none => .error .notFound

def names : Place → Except FileError (List String)
  | absent => .error .notFound
  | blocked => .error .notADirectory
  | folder entries => .ok (entries.map (·.1))

end Place

/-- The payload of a file, which a directory does not have. -/
def Node.payload? : Node → Except FileError Bytes
  | file content => content.payload?
  | folder => .error .isADirectory

end Outbox.Storage
