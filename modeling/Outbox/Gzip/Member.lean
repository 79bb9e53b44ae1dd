import Outbox.Gzip.Checksum
import Outbox.Gzip.Inflate

/-! # Gzip files

A gzip file is a header, compressed data, and the checksum and size of what was compressed. Only
the first member of a file is read. Whatever is wrong with it, the file is damaged.
-/

namespace Outbox.Gzip

/-- The number whose bytes, the lowest first, are given. -/
def littleEndian : Bytes → Nat
  | [] => 0
  | b :: bs => b.toNat + 256 * littleEndian bs

/-- The bytes after the next `n` ones, if there are so many. -/
def dropExactly (n : Nat) (b : Bytes) : Option Bytes :=
  if n ≤ b.length then some (b.drop n) else none

def maxField : Nat := 65535

def dropText (b : Bytes) : Option Bytes :=
  match b.dropWhile (· ≠ 0) with
  | [] => none
  | _ :: rest => if (b.takeWhile (· ≠ 0)).length ≤ maxField then some rest else none

/-- The bytes after an extra field with its length. -/
def dropExtra : Bytes → Option Bytes
  | lo :: hi :: rest => dropExactly (littleEndian [lo, hi]) rest
  | _ => none

def dropIf (flag : Bool) (f : Bytes → Option Bytes) (b : Bytes) : Option Bytes :=
  if flag then f b else some b

/-- The bytes after a header. The flags tell which of its optional parts are there; the last of
    them is half of a checksum of the header itself. -/
def dropHeader (b : Bytes) : Option Bytes :=
  match b with
  | 0x1F :: 0x8B :: 8 :: flags :: _ :: _ :: _ :: _ :: _ :: _ :: rest =>
    if flags ≥ 0x20 then none
    else
      let has (i : Nat) : Bool := flags.toNat.testBit i
      (dropIf (has 2) dropExtra rest).bind fun rest =>
        (dropIf (has 3) dropText rest).bind fun rest =>
          (dropIf (has 4) dropText rest).bind fun rest =>
            dropIf (has 1) (fun rest =>
              match rest with
              | lo :: hi :: after =>
                let header := b.take (b.length - rest.length)
                if littleEndian [lo, hi] = (crc32 header).toNat % 65536 then some after else none
              | _ => none) rest
  | _ => none

/-- What a gzip file holds, unless it is damaged. -/
def decode? (b : Bytes) : Option Bytes :=
  match dropHeader b with
  | none => none
  | some rest =>
    match inflate (bitsOf rest) with
    | none => none
    | some (out, bits) =>
      match takeBits 32 (align bits) with
      | none => none
      | some (sum, bits) =>
        match takeBits 32 bits with
        | none => none
        | some (size, _) =>
          if sum = (crc32 out).toNat ∧ size = out.length % 4294967296 then some out else none

end Outbox.Gzip
