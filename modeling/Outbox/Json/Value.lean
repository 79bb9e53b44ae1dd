import Outbox.Bytes
import Outbox.Text.Decimal
import Outbox.Text.Hex

/-! # JSON values and their compact text

A value keeps the text of its numbers and strings as it stands: the digits of a number, and what
stands between the quotes of a string with its escapes still in. So a value can hold what nobody
will read, such as a number of any size, and each reader decides what it accepts.
-/

namespace Outbox

/-- A JSON value. -/
inductive Json where
  | null
  | bool (value : Bool)
  /-- A number, as it was written. -/
  | number (literal : Bytes)
  /-- A string, as it stands between its quotes. -/
  | string (raw : Bytes)
  | array (items : List Json)
  /-- An object, with its members in order and their names as they stand between the quotes. -/
  | object (members : List (Bytes × Json))
  deriving Repr, Inhabited

namespace Json

def quote : UInt8 := 0x22

def backslash : UInt8 := 0x5C

def comma : UInt8 := 0x2C

def colon : UInt8 := 0x3A

def openBracket : UInt8 := 0x5B

def closeBracket : UInt8 := 0x5D

def openBrace : UInt8 := 0x7B

def closeBrace : UInt8 := 0x7D

def word (s : String) : Bytes := s.toList.map fun c => c.toNat.toUInt8

/-! ## Escapes -/

def hexDigit (n : Nat) : UInt8 := (Text.Hex.digit n).toNat.toUInt8

/-- A byte inside a written string. Quotes, backslashes and control characters are escaped. -/
def escapeByte (b : UInt8) : Bytes :=
  if b = quote then [backslash, quote]
  else if b = backslash then [backslash, backslash]
  else if b = 0x08 then [backslash, 0x62]
  else if b = 0x09 then [backslash, 0x74]
  else if b = 0x0A then [backslash, 0x6E]
  else if b = 0x0C then [backslash, 0x66]
  else if b = 0x0D then [backslash, 0x72]
  else if b < 0x20 then
    [backslash, 0x75, 0x30, 0x30, hexDigit (b.toNat / 16), hexDigit (b.toNat % 16)]
  else [b]

/-- The bytes of a text as they are written between quotes. -/
def escape (b : Bytes) : Bytes := b.flatMap escapeByte

/-- The number of a byte that is a hexadecimal digit. -/
def hexVal? (b : UInt8) : Option Nat := Text.Hex.val? (Char.ofUInt8 b)

/-- The number written by four hexadecimal digits. -/
def codeUnit? (a b c d : UInt8) : Option Nat :=
  match hexVal? a, hexVal? b, hexVal? c, hexVal? d with
  | some a, some b, some c, some d => some (((a * 16 + b) * 16 + c) * 16 + d)
  | _, _, _, _ => none

/-- The byte that a one-letter escape stands for. -/
def unescapeLetter? (b : UInt8) : Option UInt8 :=
  if b = quote then some quote
  else if b = backslash then some backslash
  else if b = 0x2F then some 0x2F
  else if b = 0x62 then some 0x08
  else if b = 0x66 then some 0x0C
  else if b = 0x6E then some 0x0A
  else if b = 0x72 then some 0x0D
  else if b = 0x74 then some 0x09
  else none

/-- The bytes of a written string without its escapes, after `acc` in reverse. A surrogate counts
    only as the first or second half of a pair. -/
def unescapeAfter (acc : Bytes) : Bytes → Option Bytes
  | [] => some acc.reverse
  | b :: rest =>
    if b = backslash then
      match rest with
      | 0x75 :: h₁ :: h₂ :: h₃ :: h₄ :: rest =>
        match codeUnit? h₁ h₂ h₃ h₄ with
        | none => none
        | some n =>
          if 0xDC00 ≤ n ∧ n ≤ 0xDFFF then none
          else if 0xD800 ≤ n ∧ n ≤ 0xDBFF then
            match rest with
            | s :: u :: l₁ :: l₂ :: l₃ :: l₄ :: rest =>
              match codeUnit? l₁ l₂ l₃ l₄ with
              | none => none
              | some m =>
                if s = backslash ∧ u = 0x75 ∧ 0xDC00 ≤ m ∧ m ≤ 0xDFFF then
                  let c := Char.ofNat (0x10000 + (n - 0xD800) * 0x400 + (m - 0xDC00))
                  unescapeAfter ((String.utf8EncodeChar c).reverse ++ acc) rest
                else none
            | _ => none
          else unescapeAfter ((String.utf8EncodeChar (Char.ofNat n)).reverse ++ acc) rest
      | e :: rest =>
        match unescapeLetter? e with
        | some c => unescapeAfter (c :: acc) rest
        | none => none
      | [] => none
    else unescapeAfter (b :: acc) rest

def unescape? (raw : Bytes) : Option Bytes := unescapeAfter [] raw

def text? (raw : Bytes) : Option String := (unescape? raw).bind Bytes.toString?

/-! ## Writing -/

def ofString (s : String) : Json := .string (escape (Bytes.ofString s))

def ofInt (i : Int) : Json := .number ((Text.Decimal.ofInt i).map fun c => c.toNat.toUInt8)

def ofOption {α : Type} (f : α → Json) : Option α → Json
  | some a => f a
  | none => .null

def record (members : List (String × Json)) : Json :=
  .object (members.map fun m => (escape (Bytes.ofString m.1), m.2))

/-- The bytes of a written string with its quotes. -/
def quoted (raw : Bytes) : Bytes := quote :: raw ++ [quote]

/-- The compact text of a value: no white space, members in order. -/
def render : Json → Bytes
  | .null => word "null"
  | .bool true => word "true"
  | .bool false => word "false"
  | .number literal => literal
  | .string raw => quoted raw
  | .array items =>
    openBracket :: [comma].intercalate (items.attach.map fun ⟨i, _⟩ => i.render) ++ [closeBracket]
  | .object members =>
    openBrace :: [comma].intercalate
      (members.attach.map fun ⟨(k, v), _⟩ => quoted k ++ colon :: v.render) ++ [closeBrace]
termination_by j => sizeOf j
decreasing_by
  · have := List.sizeOf_lt_of_mem ‹_›
    simp only [array.sizeOf_spec]
    omega
  · have := List.sizeOf_lt_of_mem ‹_›
    simp only [object.sizeOf_spec]
    simp only [Prod.mk.sizeOf_spec] at this
    omega

end Json

end Outbox
