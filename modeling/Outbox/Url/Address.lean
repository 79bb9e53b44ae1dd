import Outbox.Ranged
import Outbox.Text.Decimal
import Outbox.Url.Percent

/-! # Numeric addresses of hosts

An address of version 4 is read from up to four numbers, the last of which fills all the bytes that
are left; a number is decimal, octal after a zero, or hexadecimal after a zero and an x. An address
of version 6 is eight groups of hexadecimal digits, where two colons stand for one or more groups
of zeros and the last two groups may be given as four decimal numbers.
-/

namespace Outbox.Url

/-- The number that the digits of a base continue, when `acc` is what stands before them. -/
def readDigits (base : Nat) (acc : Nat) : List Char → Option Nat
  | [] => some acc
  | c :: cs =>
    match Text.Hex.val? c with
    | some d => if d < base then readDigits base (acc * base + d) cs else none
    | none => none

/-- An address of version 4. -/
structure Ipv4 where
  /-- The four bytes as one number. -/
  value : Word32
  deriving Repr, DecidableEq

namespace Ipv4

/-- The number that one part of an address stands for. -/
def number? : List Char → Option Nat
  | [] => none
  | '0' :: 'x' :: ds => readDigits 16 0 ds
  | '0' :: 'X' :: ds => readDigits 16 0 ds
  | '0' :: d :: ds => readDigits 8 0 (d :: ds)
  | ds => readDigits 10 0 ds

/-- The parts between the points; a point at the end makes no part of its own. -/
def parts (name : List Char) : List (List Char) :=
  let ps := fields (· == '.') name
  if ps.length > 1 ∧ ps.getLast? = some [] then ps.dropLast else ps

/-- The name can only be an address: its last part is a number or at least all digits. -/
def isMeant (name : List Char) : Bool :=
  match (parts name).getLast? with
  | none => false
  | some [] => false
  | some p => p.all (fun c => '0' ≤ c && c ≤ '9') || (number? p).isSome

/-- The number whose bytes are given, the highest first. -/
def ofBytes (bs : List Nat) : Nat := bs.foldl (fun n b => n * 256 + b) 0

def parse? (name : List Char) : Option Ipv4 :=
  let ps := parts name
  if ps.length > 4 then none
  else
    match ps.mapM number? with
    | none => none
    | some ns =>
      match ns.getLast? with
      | none => none
      | some last =>
        let front := ns.dropLast
        let room := Nat.pow 256 (4 - front.length)
        if last < room ∧ front.all (· ≤ 255) then
          (Ranged.ofInt? (Int.ofNat (ofBytes front * room + last))).map Ipv4.mk
        else none

/-- The four decimal numbers with points between them. -/
def text (a : Ipv4) : String :=
  let n := a.value.toNat
  decimal (n / 16777216 % 256) ++ "." ++ decimal (n / 65536 % 256) ++ "." ++
    decimal (n / 256 % 256) ++ "." ++ decimal (n % 256)

end Ipv4

/-- An address of version 6. -/
structure Ipv6 where
  groups : List Word16
  size : groups.length = 8
  deriving DecidableEq

namespace Ipv6

def group? (cs : List Char) : Option Word16 :=
  if cs.length = 0 ∨ cs.length > 4 then none
  else (readDigits 16 0 cs).bind fun n => Ranged.ofInt? n

/-- A decimal number for a byte, without leading zeros. -/
def byte? (cs : List Char) : Option Nat :=
  if cs.length = 0 ∨ cs.length > 3 ∨ (cs.head? = some '0' ∧ cs.length > 1) then none
  else (readDigits 10 0 cs).filter (· ≤ 255)

/-- The two groups that four decimal numbers stand for. -/
def dotted? (cs : List Char) : Option (List Word16) :=
  match (fields (· == '.') cs).mapM byte? with
  | some [a, b, c, d] => [a * 256 + b, c * 256 + d].mapM fun n => Ranged.ofInt? (Int.ofNat n)
  | _ => none

/-- The groups between the colons. If `final` holds, the last ones may be dotted. -/
def groups? (final : Bool) : List (List Char) → Option (List Word16)
  | [] => some []
  | [cs] => if final ∧ cs.contains '.' then dotted? cs else (group? cs).map fun g => [g]
  | cs :: rest =>
    match group? cs, groups? final rest with
    | some g, some gs => some (g :: gs)
    | _, _ => none

/-- The text before the first two colons and the text after them, if there are any. -/
def splitGap (before : List Char) : List Char → Option (List Char × List Char)
  | ':' :: ':' :: rest => some (before.reverse, rest)
  | c :: rest => splitGap (c :: before) rest
  | [] => none

def side? (final : Bool) (cs : List Char) : Option (List Word16) :=
  if cs = [] then some [] else groups? final (fields (· == ':') cs)

def ofGroups? (gs : List Word16) : Option Ipv6 :=
  if h : gs.length = 8 then some ⟨gs, h⟩ else none

def parse? (cs : List Char) : Option Ipv6 :=
  match splitGap [] cs with
  | none => (groups? true (fields (· == ':') cs)).bind ofGroups?
  | some (before, after) =>
    match side? false before, side? true after with
    | some gs, some hs =>
      if gs.length + hs.length < 8 then
        ofGroups? (gs ++ List.replicate (8 - gs.length - hs.length) 0 ++ hs)
      else none
    | _, _ => none

def zeros (gs : List Nat) : Nat := (gs.takeWhile (· == 0)).length

/-- Where the first of the longest runs of zeros begins, and how long it is. -/
def longestZeros (gs : List Nat) : Nat × Nat :=
  (List.range gs.length).foldl (fun best i =>
    let n := zeros (gs.drop i)
    if best.2 < n then (i, n) else best) (0, 0)

def join (gs : List Nat) : List Char :=
  match gs with
  | [] => []
  | [g] => Nat.toDigits 16 g
  | g :: gs => Nat.toDigits 16 g ++ ':' :: join gs

/-- The shortest text of an address: the first of its longest runs of two or more zeros is left
    out. -/
def text (a : Ipv6) : String :=
  let gs := a.groups.map (·.toNat)
  let (i, n) := longestZeros gs
  if n < 2 then String.ofList (join gs)
  else String.ofList (join (gs.take i) ++ ':' :: ':' :: join (gs.drop (i + n)))

end Ipv6

end Outbox.Url
