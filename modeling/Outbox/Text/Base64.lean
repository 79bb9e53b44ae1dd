import Outbox.Bytes

/-! # Base64

Bytes as letters of the standard alphabet: three bytes give four letters, and a last group of one
or two bytes is filled up with padding. Only this form is read back: a text with missing padding,
with letters of another alphabet or with bits left over in its last letter is refused.
-/

namespace Outbox.Text.Base64

def pad : UInt8 := 0x3D

def letter (n : Nat) : UInt8 :=
  (if n < 26 then 65 + n else if n < 52 then 71 + n else if n < 62 then n - 4
    else if n = 62 then 43 else 47).toUInt8

def value? (b : UInt8) : Option Nat :=
  let n := b.toNat
  if 65 ≤ n ∧ n ≤ 90 then some (n - 65)
  else if 97 ≤ n ∧ n ≤ 122 then some (n - 71)
  else if 48 ≤ n ∧ n ≤ 57 then some (n + 4)
  else if n = 43 then some 62
  else if n = 47 then some 63
  else none

/-- The letters of the bytes, after `acc` in reverse. -/
def encodeAfter (acc : Bytes) : Bytes → Bytes
  | [] => acc.reverse
  | [a] => (pad :: pad :: letter (a.toNat % 4 * 16) :: letter (a.toNat / 4) :: acc).reverse
  | [a, b] =>
    (pad :: letter (b.toNat % 16 * 4) :: letter (a.toNat % 4 * 16 + b.toNat / 16) ::
      letter (a.toNat / 4) :: acc).reverse
  | a :: b :: c :: rest =>
    encodeAfter (letter (c.toNat % 64) :: letter (b.toNat % 16 * 4 + c.toNat / 64) ::
      letter (a.toNat % 4 * 16 + b.toNat / 16) :: letter (a.toNat / 4) :: acc) rest

def encode (b : Bytes) : Bytes := encodeAfter [] b

/-- The bytes of the letters, after `acc` in reverse. -/
def decodeAfter (acc : Bytes) : Bytes → Option Bytes
  | [] => some acc.reverse
  | w :: x :: y :: z :: rest =>
    match value? w, value? x with
    | some w, some x =>
      let a := (w * 4 + x / 16).toUInt8
      match value? y, value? z with
      | some y, some z =>
        decodeAfter ((y % 4 * 64 + z).toUInt8 :: (x % 16 * 16 + y / 4).toUInt8 :: a :: acc) rest
      | some y, none =>
        if z = pad ∧ rest = [] ∧ y % 4 = 0 then
          some ((x % 16 * 16 + y / 4).toUInt8 :: a :: acc).reverse
        else none
      | none, _ =>
        if y = pad ∧ z = pad ∧ rest = [] ∧ x % 16 = 0 then some (a :: acc).reverse else none
    | _, _ => none
  | _ => none

def decode? (b : Bytes) : Option Bytes := decodeAfter [] b

end Outbox.Text.Base64
