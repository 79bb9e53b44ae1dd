import Outbox.Json.Value

/-! # Reading JSON text

A text is one value between white space. Numbers and strings are checked for their form and kept
as they are; what they mean is up to whoever reads the value.
-/

namespace Outbox.Json

def isSpace (b : UInt8) : Bool := b == 0x20 || b == 0x09 || b == 0x0A || b == 0x0D

def skip (b : Bytes) : Bytes := b.dropWhile isSpace

def isDigit (b : UInt8) : Bool := 0x30 ≤ b && b ≤ 0x39

/-- The string that the text goes on with after an opening quote, as it is written, and the text
    after its closing quote. -/
def scanString (acc : Bytes) : Bytes → Option (Bytes × Bytes)
  | [] => none
  | b :: rest =>
    if b = quote then some (acc.reverse, rest)
    else if b = backslash then
      match rest with
      | 0x75 :: h₁ :: h₂ :: h₃ :: h₄ :: rest =>
        match codeUnit? h₁ h₂ h₃ h₄ with
        | some _ => scanString (h₄ :: h₃ :: h₂ :: h₁ :: 0x75 :: b :: acc) rest
        | none => none
      | e :: rest =>
        match unescapeLetter? e with
        | some _ => scanString (e :: b :: acc) rest
        | none => none
      | [] => none
    else if b < 0x20 then none
    else scanString (b :: acc) rest

def scanDigits (b : Bytes) : Option (Bytes × Bytes) :=
  match b.takeWhile isDigit with
  | [] => none
  | ds => some (ds, b.dropWhile isDigit)

/-- The digits of a whole number: one digit, or several that do not begin with a zero. -/
def scanWhole (b : Bytes) : Option (Bytes × Bytes) :=
  match scanDigits b with
  | some (0x30 :: _ :: _, _) => none
  | r => r

/-- The part of a number after its point, if there is one. -/
def scanFraction : Bytes → Option (Bytes × Bytes)
  | 0x2E :: rest => (scanDigits rest).map fun (ds, rest) => (0x2E :: ds, rest)
  | b => some ([], b)

def scanExponent : Bytes → Option (Bytes × Bytes)
  | e :: rest =>
    if e = 0x65 ∨ e = 0x45 then
      match rest with
      | s :: rest' =>
        if s = 0x2B ∨ s = 0x2D then
          (scanDigits rest').map fun (ds, rest) => (e :: s :: ds, rest)
        else (scanDigits rest).map fun (ds, rest) => (e :: ds, rest)
      | [] => none
    else some ([], e :: rest)
  | [] => some ([], [])

/-- A number without its sign, as it is written, and the text after it. -/
def scanUnsigned (b : Bytes) : Option (Bytes × Bytes) :=
  match scanWhole b with
  | none => none
  | some (whole, b) =>
    match scanFraction b with
    | none => none
    | some (fraction, b) =>
      match scanExponent b with
      | none => none
      | some (exponent, b) => some (whole ++ fraction ++ exponent, b)

/-- A number as it is written, and the text after it. -/
def scanNumber : Bytes → Option (Bytes × Bytes)
  | 0x2D :: rest => (scanUnsigned rest).map fun (n, rest) => (0x2D :: n, rest)
  | b => scanUnsigned b

def afterWord (w : Bytes) (b : Bytes) : Option Bytes :=
  if w.isPrefixOf b then some (b.drop w.length) else none

mutual

/-- The value that the text begins with, and the text after it. -/
def readValue : Nat → Bytes → Option (Json × Bytes)
  | 0, _ => none
  | fuel + 1, b =>
    match skip b with
    | [] => none
    | c :: rest =>
      if c = quote then (scanString [] rest).map fun (raw, rest) => (.string raw, rest)
      else if c = openBracket then
        match skip rest with
        | [] => none
        | d :: rest' =>
          if d = closeBracket then some (.array [], rest')
          else readItems fuel [] (d :: rest')
      else if c = openBrace then
        match skip rest with
        | [] => none
        | d :: rest' =>
          if d = closeBrace then some (.object [], rest')
          else readMembers fuel [] (d :: rest')
      else if c = 0x6E then (afterWord (word "ull") rest).map fun rest => (.null, rest)
      else if c = 0x74 then (afterWord (word "rue") rest).map fun rest => (.bool true, rest)
      else if c = 0x66 then (afterWord (word "alse") rest).map fun rest => (.bool false, rest)
      else (scanNumber (c :: rest)).map fun (n, rest) => (.number n, rest)

/-- The array whose first items are `acc` in reverse and whose next item the text begins with. -/
def readItems : Nat → List Json → Bytes → Option (Json × Bytes)
  | 0, _, _ => none
  | fuel + 1, acc, b =>
    match readValue fuel b with
    | none => none
    | some (v, rest) =>
      match skip rest with
      | [] => none
      | c :: rest =>
        if c = comma then readItems fuel (v :: acc) rest
        else if c = closeBracket then some (.array (v :: acc).reverse, rest)
        else none

/-- The object whose first members are `acc` in reverse and whose next member the text begins
    with. -/
def readMembers : Nat → List (Bytes × Json) → Bytes → Option (Json × Bytes)
  | 0, _, _ => none
  | fuel + 1, acc, b =>
    match skip b with
    | [] => none
    | c :: rest =>
      if c = quote then
        match scanString [] rest with
        | none => none
        | some (key, rest) =>
          match skip rest with
          | [] => none
          | c :: rest =>
            if c = colon then
              match readValue fuel rest with
              | none => none
              | some (v, rest) =>
                match skip rest with
                | [] => none
                | c :: rest =>
                  if c = comma then readMembers fuel ((key, v) :: acc) rest
                  else if c = closeBrace then some (.object ((key, v) :: acc).reverse, rest)
                  else none
            else none
      else none

end

/-- The value that a text holds. Each token takes at least one byte, so the length of the text
    bounds the depth of the reading. -/
def read? (b : Bytes) : Option Json :=
  match readValue (b.length + 1) b with
  | none => none
  | some (v, rest) => if (skip rest).isEmpty then some v else none

end Outbox.Json
