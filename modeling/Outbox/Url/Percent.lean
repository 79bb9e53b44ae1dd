import Outbox.Bytes
import Outbox.Text.Hex

/-! # Percent escapes

An address is written in visible ASCII. A character that would not survive, or that would be taken
for a separator where it stands, is written as its UTF-8 bytes, each as a percent sign and two
hexadecimal digits.
-/

namespace Outbox.Url

def escapeByte (b : UInt8) : List Char :=
  ['%', Text.Hex.upperDigit (b.toNat / 16), Text.Hex.upperDigit (b.toNat % 16)]

/-- The text with the characters of the class `p` escaped. -/
def escape (p : Char → Bool) (cs : List Char) : List Char :=
  cs.flatMap fun c => if p c then (Bytes.ofString (String.singleton c)).flatMap escapeByte else [c]

/-- The bytes of a text in which escapes stand for bytes. A percent sign that begins no escape
    stands for itself. -/
def unescape : Bytes → Bytes
  | [] => []
  | 0x25 :: a :: b :: rest =>
    match Text.Hex.val? (Char.ofUInt8 a), Text.Hex.val? (Char.ofUInt8 b) with
    | some x, some y => (x * 16 + y).toUInt8 :: unescape rest
    | _, _ => 0x25 :: unescape (a :: b :: rest)
  | b :: rest => b :: unescape rest

/-- Control characters and all that is not ASCII. -/
def isControl (c : Char) : Bool := c.toNat < 0x20 || 0x7E < c.toNat

def isEscapedInPath (c : Char) : Bool :=
  isControl c || " \x22#<>?\x60\x7b\x7d".toList.contains c

/-- What is escaped in the name and the password of a user. -/
def isEscapedInUser (c : Char) : Bool :=
  isEscapedInPath c || "/:;=@[\\]^|".toList.contains c

/-- The parts of a text between the separators of the class `p`, at least one. -/
def fields (p : Char → Bool) : List Char → List (List Char)
  | [] => [[]]
  | c :: cs =>
    if p c then [] :: fields p cs
    else
      match fields p cs with
      | [] => [[c]]
      | f :: fs => (c :: f) :: fs

theorem fields_ne_nil (p : Char → Bool) (cs : List Char) : fields p cs ≠ [] := by
  cases cs with
  | nil => simp [fields]
  | cons c cs =>
    rw [fields]
    split
    · simp
    · split <;> simp

end Outbox.Url
