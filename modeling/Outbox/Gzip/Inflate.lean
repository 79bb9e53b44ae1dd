import Outbox.Bytes
import Outbox.Gzip.Huffman

/-! # Inflating

Compressed data is a sequence of blocks. A block holds its bytes as they are, or as symbols of two
prefix codes: one for bytes and lengths of repetitions, one for the distances these reach back. The
codes are fixed, or they stand at the beginning of the block.
-/

namespace Outbox.Gzip

def bitsOfByte (b : UInt8) : List Bool := (List.range 8).map fun i => b.toNat.testBit i

def bitsOf (b : Bytes) : List Bool := b.flatMap bitsOfByte

/-- The number whose `n` bits, the lowest first, the text begins with. -/
def takeBits : Nat → List Bool → Option (Nat × List Bool)
  | 0, bs => some (0, bs)
  | _ + 1, [] => none
  | n + 1, b :: bs => (takeBits n bs).map fun (v, bs) => (b.toNat + 2 * v, bs)

def align (bs : List Bool) : List Bool := bs.drop (bs.length % 8)

/-- The shortest length and the number of extra bits of each length symbol, from 257. -/
def lengthTable : Array (Nat × Nat) := #[
    (3, 0), (4, 0), (5, 0), (6, 0), (7, 0), (8, 0), (9, 0), (10, 0), (11, 1), (13, 1), (15, 1),
    (17, 1), (19, 2), (23, 2), (27, 2), (31, 2), (35, 3), (43, 3), (51, 3), (59, 3), (67, 4),
    (83, 4), (99, 4), (115, 4), (131, 5), (163, 5), (195, 5), (227, 5), (258, 0)]

/-- The shortest distance and the number of extra bits of each distance symbol. -/
def distanceTable : Array (Nat × Nat) := #[
    (1, 0), (2, 0), (3, 0), (4, 0), (5, 1), (7, 1), (9, 2), (13, 2), (17, 3), (25, 3), (33, 4),
    (49, 4), (65, 5), (97, 5), (129, 6), (193, 6), (257, 7), (385, 7), (513, 8), (769, 8),
    (1025, 9), (1537, 9), (2049, 10), (3073, 10), (4097, 11), (6145, 11), (8193, 12), (12289, 12),
    (16385, 13), (24577, 13)]

/-- The number that a symbol and its extra bits stand for. -/
def readExtra (table : Array (Nat × Nat)) (symbol : Nat) (bs : List Bool) :
    Option (Nat × List Bool) :=
  match table[symbol]? with
  | none => none
  | some (base, extra) => (takeBits extra bs).map fun (v, bs) => (base + v, bs)

/-- Appends `length` bytes, each the one `distance` places before it. -/
def repeatBack (distance : Nat) : Nat → Array UInt8 → Array UInt8
  | 0, out => out
  | length + 1, out => repeatBack distance length (out.push (out.getD (out.size - distance) 0))

/-- The bytes of a block of symbols, after what was written before. Every symbol takes at least one
    bit. -/
def readSymbols (literals distances : PrefixCode) :
    Nat → Array UInt8 → List Bool → Option (Array UInt8 × List Bool)
  | 0, _, _ => none
  | fuel + 1, out, bs =>
    match literals.read bs with
    | none => none
    | some (symbol, bs) =>
      if symbol < 256 then readSymbols literals distances fuel (out.push symbol.toUInt8) bs
      else if symbol = 256 then some (out, bs)
      else
        match readExtra lengthTable (symbol - 257) bs with
        | none => none
        | some (length, bs) =>
          match distances.read bs with
          | none => none
          | some (symbol, bs) =>
            match readExtra distanceTable symbol bs with
            | none => none
            | some (distance, bs) =>
              if distance ≤ out.size then
                readSymbols literals distances fuel (repeatBack distance length out) bs
              else none

/-- `n` whole bytes, after what was written before. -/
def readBytes : Nat → Array UInt8 → List Bool → Option (Array UInt8 × List Bool)
  | 0, out, bs => some (out, bs)
  | n + 1, out, bs =>
    match takeBits 8 bs with
    | none => none
    | some (b, bs) => readBytes n (out.push b.toUInt8) bs

/-- A block that holds its bytes as they are. Their number is written twice, once inverted. -/
def readStored (out : Array UInt8) (bs : List Bool) : Option (Array UInt8 × List Bool) :=
  match takeBits 16 (align bs) with
  | none => none
  | some (n, bs) =>
    match takeBits 16 bs with
    | none => none
    | some (m, bs) => if n + m = 65535 then readBytes n out bs else none

/-- The lengths of the fixed code of bytes and lengths. -/
def fixedLiterals : List Nat :=
  List.replicate 144 8 ++ List.replicate 112 9 ++ List.replicate 24 7 ++ List.replicate 8 8

def fixedDistances : List Nat := List.replicate 32 5

/-- The symbols in whose order the lengths of the code of lengths are written. -/
def lengthOrder : List Nat :=
  [16, 17, 18, 0, 8, 7, 9, 6, 10, 5, 11, 4, 12, 3, 13, 2, 14, 1, 15]

def readTriples : Nat → List Bool → Option (List Nat × List Bool)
  | 0, bs => some ([], bs)
  | n + 1, bs =>
    match takeBits 3 bs with
    | none => none
    | some (v, bs) => (readTriples n bs).map fun (vs, bs) => (v :: vs, bs)

/-- The lengths of two codes, of which `rev` holds the first in reverse and `todo` are to come.
    Symbols above 15 repeat the last length or zero. -/
def readLengths (code : PrefixCode) :
    Nat → Nat → List Nat → List Bool → Option (List Nat × List Bool)
  | _, 0, rev, bs => some (rev.reverse, bs)
  | 0, _ + 1, _, _ => none
  | fuel + 1, todo + 1, rev, bs =>
    match code.read bs with
    | none => none
    | some (symbol, bs) =>
      if symbol < 16 then readLengths code fuel todo (symbol :: rev) bs
      else
        let run : Option (Nat × Nat × List Bool) :=
          if symbol = 16 then
            match rev with
            | [] => none
            | last :: _ => (takeBits 2 bs).map fun (v, bs) => (last, 3 + v, bs)
          else if symbol = 17 then (takeBits 3 bs).map fun (v, bs) => (0, 3 + v, bs)
          else (takeBits 7 bs).map fun (v, bs) => (0, 11 + v, bs)
        match run with
        | none => none
        | some (length, n, bs) =>
          if n ≤ todo + 1 then
            readLengths code fuel (todo + 1 - n) (List.replicate n length ++ rev) bs
          else none

/-- The two codes that stand at the beginning of a block. -/
def readCodes (bs : List Bool) : Option (PrefixCode × PrefixCode × List Bool) :=
  match takeBits 5 bs with
  | none => none
  | some (literals, bs) =>
    match takeBits 5 bs with
    | none => none
    | some (distances, bs) =>
      match takeBits 4 bs with
      | none => none
      | some (lengths, bs) =>
        let literals := literals + 257
        let distances := distances + 1
        if literals > 286 ∨ distances > 30 then none
        else
          match readTriples (lengths + 4) bs with
          | none => none
          | some (triples, bs) =>
            let written := lengthOrder.zip triples
            let sizes := (List.range 19).map fun s => (written.lookup s).getD 0
            match PrefixCode.ofLengths? sizes with
            | none => none
            | some code =>
              let total := literals + distances
              match readLengths code total total [] bs with
              | none => none
              | some (all, bs) =>
                match PrefixCode.ofLengths? (all.take literals),
                    PrefixCode.ofLengths? (all.drop literals) with
                | some l, some d => some (l, d, bs)
                | _, _ => none

/-- The bytes of a block of symbols with these codes. -/
def readCoded (literals distances : Option PrefixCode) (out : Array UInt8) (bs : List Bool) :
    Option (Array UInt8 × List Bool) :=
  match literals, distances with
  | some l, some d => readSymbols l d (bs.length + 1) out bs
  | _, _ => none

/-- The bytes of all blocks, after what was written before. Every block takes at least three
    bits. -/
def readBlocks : Nat → Array UInt8 → List Bool → Option (Array UInt8 × List Bool)
  | 0, _, _ => none
  | fuel + 1, out, bs =>
    match takeBits 1 bs with
    | none => none
    | some (final, bs) =>
      match takeBits 2 bs with
      | none => none
      | some (type, bs) =>
        let block :=
          if type = 0 then readStored out bs
          else if type = 1 then
            readCoded (PrefixCode.ofLengths? fixedLiterals) (PrefixCode.ofLengths? fixedDistances)
              out bs
          else if type = 2 then
            match readCodes bs with
            | none => none
            | some (l, d, bs) => readCoded (some l) (some d) out bs
          else none
        match block with
        | none => none
        | some (out, bs) => if final = 1 then some (out, bs) else readBlocks fuel out bs

/-- The bytes of compressed data, and the bits after it. -/
def inflate (bs : List Bool) : Option (Bytes × List Bool) :=
  (readBlocks (bs.length + 1) #[] bs).map fun (out, bs) => (out.toList, bs)

end Outbox.Gzip
