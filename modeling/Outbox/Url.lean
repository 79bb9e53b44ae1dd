import Outbox.Text.Blank
import Outbox.Url.Host
import Outbox.Url.Path

/-! # Addresses of the web

An address names a scheme, for most schemes a host, and a path. It is read generously: case,
slashes, dots and superfluous ports are brought into one form, so that two texts for the same place
become the same address. What follows the path, from a question mark or a number sign on, is left
out, for nothing is ever resolved against it.
-/

namespace Outbox

/-- The address of a place. -/
structure Url where
  /-- The scheme in lower case. -/
  scheme : String
  user : String
  password : String
  host : Option Url.Host
  /-- The port, unless it is the usual one of the scheme. -/
  port : Option Word16
  path : Url.Path
  deriving DecidableEq

namespace Url

def usualPort? (scheme : String) : Option Nat :=
  if scheme = "http" ∨ scheme = "ws" then some 80
  else if scheme = "https" ∨ scheme = "wss" then some 443
  else if scheme = "ftp" then some 21
  else none

/-- The scheme is one of the web: it always has a host, and a backslash counts as a slash. -/
def isWeb (scheme : String) : Bool := (usualPort? scheme).isSome

def isFile (scheme : String) : Bool := scheme == "file"

def isSlash (scheme : String) (c : Char) : Bool :=
  c == '/' || ((isWeb scheme || isFile scheme) && c == '\\')

def isPathEnd (c : Char) : Bool := c == '?' || c == '#'

/-- The text without blanks and controls at its ends, and without line breaks and tabs. -/
def tidy (text : String) : List Char :=
  (Text.strip (fun c => c.toNat ≤ 0x20) text.toList).filter fun c =>
    !(c == '\t' || c == '\n' || c == '\r')

/-- The scheme in front of a colon, and the text after the colon. -/
def scheme? (cs : List Char) : Option (String × List Char) :=
  let isLetter (c : Char) := c.isAlphanum || c == '+' || c == '-' || c == '.'
  match cs.takeWhile isLetter, cs.dropWhile isLetter with
  | c :: name, ':' :: rest =>
    if c.isAlpha then some (String.ofList ((c :: name).map Char.toLower), rest) else none
  | _, _ => none

/-- The path that a text gives; a slash in front of it has no segment before it. -/
def pathOf (scheme : String) (cs : List Char) : List String :=
  let cs := cs.takeWhile fun c => !isPathEnd c
  let cs :=
    match cs with
    | c :: rest => if isSlash scheme c then rest else cs
    | [] => []
  Path.resolve (isFile scheme) [] (Path.pieces (isSlash scheme) cs)

/-- The text before the last `@`, if there is one, and the text after it. -/
def splitUser (cs : List Char) : Option (List Char) × List Char :=
  let after := (cs.reverse.takeWhile (· != '@')).reverse
  if after.length = cs.length then (none, cs)
  else (some (cs.take (cs.length - after.length - 1)), after)

def credentials (cs : List Char) : String × String :=
  let write (cs : List Char) := String.ofList (escape isEscapedInUser cs)
  (write (cs.takeWhile (· != ':')), write ((cs.dropWhile (· != ':')).drop 1))

/-- The text of a host, up to a colon that is not in brackets, and the rest. -/
def splitHost (inBrackets : Bool) : List Char → List Char × List Char
  | [] => ([], [])
  | c :: cs =>
    if c = ':' ∧ !inBrackets then ([], c :: cs)
    else
      let (host, rest) := splitHost (c == '[' || (inBrackets && c != ']')) cs
      (c :: host, rest)

def portOf (scheme : String) : List Char → Except Error (Option Word16)
  | ':' :: cs =>
    let ds := cs.takeWhile (· != '\\')
    if ds = [] then .ok none
    else
      match readDigits 10 0 ds with
      | none => .error .invalidPort
      | some n =>
        match Ranged.ofInt? (Int.ofNat n) with
        | none => .error .invalidPort
        | some p => .ok (if usualPort? scheme = some n then none else some p)
  | _ => .ok none

/-- The address of a place on a host, from the text after the two slashes. -/
def ofAuthority (scheme : String) (cs : List Char) : Except Error Url :=
  let isEnd (c : Char) := isSlash scheme c || isPathEnd c
  let authority := cs.takeWhile fun c => !isEnd c
  let rest := cs.dropWhile fun c => !isEnd c
  let (named, place) := splitUser authority
  let (user, password) := credentials (named.getD [])
  let (hostText, portText) := splitHost false place
  let portEnd := portText.dropWhile (· != '\\')
  let rest := portEnd ++ rest
  if hostText = [] ∧ (isWeb scheme ∨ portText ≠ [] ∨ user ≠ "" ∨ password ≠ "" ∨
      (named = some [] ∧ rest ≠ [])) then .error .emptyHost
  else do
    let host ← if isWeb scheme then Host.ofWeb hostText else Host.ofOther hostText
    let port ← portOf scheme portText
    let path :=
      if !isWeb scheme ∧ (rest.takeWhile fun c => !isPathEnd c) = [] then [] else pathOf scheme rest
    return ⟨scheme, user, password, some host, port, .segments path⟩

/-- The address of a file, with the text of a host and that of a path. -/
def fileOn (hostText path : List Char) : Except Error Url := do
  let host ← if hostText = [] then .ok (.named "") else Host.ofWeb hostText
  let segments := pathOf "file" path
  let isHere := host == .named "localhost" || segments.head?.any Path.isDrive
  return ⟨"file", "", "", some (if isHere then .named "" else host), none,
    .segments (Path.dropEmpty segments)⟩

/-- The address of a file, from the text after the colon. -/
def ofFile (cs : List Char) : Except Error Url :=
  match cs with
  | a :: b :: rest =>
    if isSlash "file" a ∧ isSlash "file" b then
      let isEnd (c : Char) := isSlash "file" c || isPathEnd c
      let host := rest.takeWhile fun c => !isEnd c
      if Path.isDrive (String.ofList host) then fileOn [] rest
      else fileOn host (rest.dropWhile fun c => !isEnd c)
    else fileOn [] cs
  | cs => fileOn [] cs

def parse (text : String) : Except Error Url :=
  match scheme? (tidy text) with
  | none => .error .missingScheme
  | some (scheme, cs) =>
    if isFile scheme then ofFile cs
    else if isWeb scheme then ofAuthority scheme (cs.dropWhile (isSlash scheme))
    else
      match cs with
      | '/' :: '/' :: cs => ofAuthority scheme cs
      | '/' :: cs => .ok ⟨scheme, "", "", none, none, .segments (pathOf scheme ('/' :: cs))⟩
      | cs =>
        .ok ⟨scheme, "", "", none, none,
          .plain (String.ofList (escape isControl (cs.takeWhile fun c => !isPathEnd c)))⟩

/-- The address of a place given from here: the path takes the place of the last segment. -/
def resolve (u : Url) (relative : String) : Except Error Url :=
  match u.path with
  | .plain _ => .error .rootless
  | .segments segments =>
    .ok { u with
      path := .segments (Path.resolve (isFile u.scheme)
        (Path.folder (isFile u.scheme) segments).reverse
        (Path.pieces (isSlash u.scheme) relative.toList)) }

def userText (u : Url) : String :=
  if u.user = "" ∧ u.password = "" then ""
  else u.user ++ (if u.password = "" then "" else ":" ++ u.password) ++ "@"

def portText (u : Url) : String :=
  match u.port with
  | some p => ":" ++ decimal p.val
  | none => ""

/-- The host with all that stands around it. Without a host, a path that begins like one is
    kept apart from the scheme. -/
def hostText (u : Url) : String :=
  match u.host, u.path with
  | some h, _ => "//" ++ u.userText ++ h.text ++ u.portText
  | none, .segments ("" :: _ :: _) => "/."
  | none, _ => ""

def text (u : Url) : String := u.scheme ++ ":" ++ u.hostText ++ u.path.text

end Url

end Outbox
