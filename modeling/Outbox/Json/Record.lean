import Outbox.Json.Reader
import Outbox.Ranged

/-! # Reading records

A record is written as an object with its fields as members, or as an array of its fields in order
of declaration. Members of other names are passed over, a field that occurs twice is refused.
Integers must be written as plain digits and lie in the range of their field.
-/

namespace Outbox.Json

/-! ## Single values -/

def asString? : Json → Option String
  | .string raw => text? raw
  | _ => none

def asBool? : Json → Option Bool
  | .bool b => some b
  | _ => none

def digits? (b : Bytes) : Option Nat :=
  if b.all isDigit then some (b.foldl (fun n d => n * 10 + (d.toNat - 48)) 0) else none

/-- The number of the range that is written as a plain integer. Zero has no sign. -/
def asRanged? {lo hi : Int} : Json → Option (Ranged lo hi)
  | .number (0x2D :: ds) =>
    match digits? ds with
    | some 0 | none => none
    | some n => Ranged.ofInt? (-Int.ofNat n)
  | .number ds => (digits? ds).bind fun n => Ranged.ofInt? (Int.ofNat n)
  | _ => none

/-- The value of `all` with the written name. A name may also be the only member of an object,
    with `null` beside it. -/
def asOneOf? {α : Type} (all : List α) (name : α → String) : Json → Option α
  | .string raw => (text? raw).bind fun s => all.find? fun a => name a == s
  | .object [(raw, .null)] => (text? raw).bind fun s => all.find? fun a => name a == s
  | _ => none

def asList? {α : Type} (f : Json → Option α) : Json → Option (List α)
  | .array items => items.mapM f
  | _ => none

def asBytes? (j : Json) : Option Bytes :=
  (asList? (@asRanged? 0 255) j).map fun ns => ns.map fun n => n.toNat.toUInt8

/-! ## Fields -/

/-- What a text says about the declared fields of a record. -/
structure Fields where
  /-- The record is written as an array. -/
  positional : Bool
  /-- The value of each declared field, where there is one. -/
  found : List (Option Json)

def lookup (name : String) (members : List (String × Json)) : Option Json :=
  (members.find? fun m => m.1 == name).map fun m => m.2

/-- The members of an object with their names as text. -/
def named? (members : List (Bytes × Json)) : Option (List (String × Json)) :=
  members.mapM fun m => (text? m.1).map fun k => (k, m.2)

def fields? (names : List String) : Json → Option Fields
  | .object members =>
    match named? members with
    | none => none
    | some ms =>
      if names.all fun n => (ms.filter fun m => m.1 == n).length ≤ 1 then
        some ⟨false, names.map fun n => lookup n ms⟩
      else none
  | .array items =>
    if items.length ≤ names.length then
      some ⟨true, items.map some ++ List.replicate (names.length - items.length) none⟩
    else none
  | _ => none

def required? {α : Type} (f : Json → Option α) : Option Json → Option α
  | some j => f j
  | none => none

/-- A field that may be `null` and, in an object, absent. -/
def optional? {α : Type} (f : Json → Option α) (positional : Bool) : Option Json → Option (Option α)
  | some .null => some none
  | some j => (f j).map some
  | none => if positional then none else some none

/-- A field that has the value `a` where it is absent. -/
def defaulted? {α : Type} (f : Json → Option α) (a : α) : Option Json → Option α
  | some j => f j
  | none => some a

end Outbox.Json
