/-! # Bytes and text

Payloads are byte strings. Text goes to bytes as UTF-8, and bytes go back to text only when they
are valid UTF-8.
-/

namespace Outbox

abbrev Bytes := List UInt8

namespace Bytes

def ofString (s : String) : Bytes := s.toUTF8.data.toList

/-- The text with these UTF-8 bytes, if they are valid. -/
def toString? (b : Bytes) : Option String := String.fromUTF8? ⟨b.toArray⟩

/-- Reading back the bytes of a text gives the text. -/
theorem toString?_ofString (s : String) : toString? (ofString s) = some s := by
  simp [toString?, ofString, String.fromUTF8?, String.toUTF8, s.isValidUTF8]
  rfl

end Bytes

end Outbox
