import Outbox.Url.Percent

/-! # Paths

A path is a list of segments. A segment of one dot stands for the place where it is, and one of two
dots for the place above. Below the root of a file system a segment may name a drive, and nothing
leads above that.
-/

namespace Outbox.Url

/-- A path. -/
inductive Path where
  /-- A text that is kept as it is, for schemes that name no places. -/
  | plain (text : String)
  /-- Segments, each of which follows a slash. -/
  | segments (segments : List String)
  deriving Repr, DecidableEq

namespace Path

def ofSegments (segments : List String) : String :=
  segments.foldr (fun s rest => "/" ++ s ++ rest) ""

def text : Path → String
  | .plain s => s
  | .segments ss => ofSegments ss

def isDot (s : String) : Bool := [".", "%2e", "%2E"].contains s

def isDots (s : String) : Bool :=
  ["..", ".%2e", ".%2E", "%2e.", "%2E.", "%2e%2e", "%2e%2E", "%2E%2e", "%2E%2E"].contains s

/-- The segment names a drive: a letter and a colon or a bar. -/
def isDrive (s : String) : Bool :=
  match s.toList with
  | [c, m] => c.isAlpha && (m == ':' || m == '|')
  | _ => false

/-- The segment with a colon, if it names a drive. -/
def driveName (s : String) : String :=
  if isDrive s then String.ofList (s.toList.take 1 ++ [':']) else s

/-- The segments above the last one; all are in reverse. -/
def parent (above : List String) : List String :=
  match above with
  | [] => []
  | s :: rest => if isDrive s then s :: rest else rest

/-- The segments with their dots carried out, below the segments `above`, which are in reverse.
    The path ends with a slash if dots are its end. -/
def resolve (isFile : Bool) (above : List String) : List String → List String
  | [] => above.reverse
  | s :: rest =>
    if isDots s then
      resolve isFile (if rest = [] then "" :: parent above else parent above) rest
    else if isDot s then resolve isFile (if rest = [] then "" :: above else above) rest
    else
      resolve isFile ((if isFile && above.isEmpty then driveName s else s) :: above) rest

/-- The segments of a text, escaped where they have to be. -/
def pieces (isSlash : Char → Bool) (cs : List Char) : List String :=
  (fields isSlash cs).map fun s => String.ofList (escape isEscapedInPath s)

/-- The segments without the empty ones in front; one remains. -/
def dropEmpty : List String → List String
  | "" :: s :: rest => dropEmpty (s :: rest)
  | ss => ss

/-- The segments of the place in which the last segment is. -/
def folder (isFile : Bool) (segments : List String) : List String :=
  if isFile && segments.getLast?.any isDrive then segments else segments.dropLast

end Path

end Outbox.Url
