import Outbox.Text.Hex

/-! # Random identifiers

Version 4 of the universally unique identifiers: 122 random bits, written as 32 hexadecimal digits
in five groups. Two of the digits are fixed in part; they name the version and the variant.
-/

namespace Outbox.Uuid

open Text.Hex (digit digits)

def ofBits (bits : Nat) : String :=
  let low := bits % (1 <<< 60)
  let variant := 8 + (bits >>> 60) % 4
  let mid := (bits >>> 62) % (1 <<< 12)
  let high := bits >>> 74
  String.ofList (digits 8 (high >>> 16) ++ '-' :: digits 4 high ++ '-' :: '4' :: digits 3 mid ++
    '-' :: digit variant :: digits 3 (low >>> 48) ++ '-' :: digits 12 low)

end Outbox.Uuid
