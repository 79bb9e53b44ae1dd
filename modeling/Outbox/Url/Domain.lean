import Outbox.Url.Folding
import Outbox.Url.Percent
import Outbox.Url.Punycode

/-! # Names of hosts

A name is a list of labels with points between them. It is brought to lower case, and a label with
letters beyond ASCII is written in Punycode behind four letters that say so. A label that comes
with these letters must be what writing its letters gives. The table of letters says what lower case
is here, and where that departs from the mapping of international names.
-/

namespace Outbox.Url.Domain

def mark : List Char := "xn--".toList

def isLabel (label : List Char) : Bool :=
  label.all (fun c => !isForbidden c && foldChar c == [c]) &&
    !(label.head?.any isAccent)

/-- A label in Punycode is what writing some letters gives. -/
def isWritten (counts : List Char) : Bool :=
  match Punycode.decode? counts with
  | none => false
  | some label =>
    isLabel label && label.any (fun c => 128 ≤ c.toNat) && Punycode.encode label == counts

def label? (label : List Char) : Option (List Char) :=
  if !isLabel label then none
  else if label.take 4 = mark then
    if isWritten (label.drop 4) then some label else none
  else if label.all (fun c => c.toNat < 128) then some label
  else some (mark ++ Punycode.encode label)

def ofChars? (name : List Char) : Option (List Char) :=
  ((fields (· == '.') (name.flatMap foldChar)).mapM label?).map fun ls =>
    List.intercalate ['.'] ls

/-- The ASCII form of a name in which escapes stand for the bytes of its text. -/
def ofEscaped? (name : List Char) : Option (List Char) :=
  (Bytes.toString? (unescape (Bytes.ofString (String.ofList name)))).bind fun s => ofChars? s.toList

end Outbox.Url.Domain
