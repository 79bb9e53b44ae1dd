/-! # Prefix codes

A prefix code is given by the length of each symbol's code word. Code words of one length are
consecutive numbers in the order of their symbols, and shorter words come first.
-/

namespace Outbox.Gzip

/-- A prefix code with words of at most 15 bits. -/
structure PrefixCode where
  /-- How many words there are of each length, from 1. -/
  counts : List Nat
  /-- The symbols, by the length of their words and then by value. -/
  symbols : Array Nat

namespace PrefixCode

def maxLength : Nat := 15

/-- The room that is left among the words of the longest length: none is left if the words fill the
    code, and `none` is the answer if there are too many words. -/
def room (left : Nat) : List Nat → Option Nat
  | [] => some left
  | c :: cs => if c ≤ left * 2 then room (left * 2 - c) cs else none

/-- The code in which symbol `i` has a word of length `lengths[i]`, or no word if that is zero.
    Room may be left over only in a code of at most one word. -/
def ofLengths? (lengths : List Nat) : Option PrefixCode :=
  let sizes := (List.range maxLength).map (· + 1)
  let counts := sizes.map fun n => lengths.count n
  let symbols := sizes.flatMap fun n => (lengths.zipIdx.filter fun p => p.1 == n).map (·.2)
  match room 1 counts with
  | none => none
  | some 0 => some ⟨counts, symbols.toArray⟩
  | some _ => if symbols.length ≤ 1 then some ⟨counts, symbols.toArray⟩ else none

/-- Reads one word bit by bit. `word` is what was read, `first` the first word of this length and
    `index` the place of its symbol. -/
def readWord (symbols : Array Nat) (word first index : Nat) :
    List Nat → List Bool → Option (Nat × List Bool)
  | c :: cs, b :: bs =>
    let word := word * 2 + b.toNat
    if word < first + c then (symbols[index + (word - first)]?).map fun s => (s, bs)
    else readWord symbols word ((first + c) * 2) (index + c) cs bs
  | _, _ => none

/-- The symbol whose word the bits begin with, and the bits after it. -/
def read (code : PrefixCode) (bits : List Bool) : Option (Nat × List Bool) :=
  readWord code.symbols 0 0 0 code.counts bits

end PrefixCode

end Outbox.Gzip
