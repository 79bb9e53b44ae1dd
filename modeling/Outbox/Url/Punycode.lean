/-! # Punycode

A label of a host name with letters beyond ASCII is written with ASCII letters only: first the
letters that are ASCII, then a list of insertions. An insertion says how many steps to go on, where
a step moves to the next place in the label, and from its end to the next letter. The count is
written with digits of base 36, the lowest first; how many of them end a count depends on a bias
that follows the sizes seen so far.
-/

namespace Outbox.Url.Punycode

def digit (n : Nat) : Char := Char.ofNat (if n < 26 then 97 + n else 22 + n)

def digitVal? (c : Char) : Option Nat :=
  let n := c.toNat
  if 97 ≤ n ∧ n ≤ 122 then some (n - 97)
  else if 48 ≤ n ∧ n ≤ 57 then some (n - 22)
  else none

/-- A digit below this number ends a count; `k` is 36 for the first digit, then 72, and so on. -/
def threshold (bias k : Nat) : Nat := min 26 (max 1 (k - bias))

theorem threshold_bounds (bias k : Nat) : 0 < threshold bias k ∧ threshold bias k < 36 := by
  unfold threshold
  omega

/-- A count brought into the range that the bias is taken from, and 36 for each division. -/
def shrink (delta k : Nat) : Nat × Nat :=
  if 455 < delta then shrink (delta / 35) (k + 36) else (delta, k)
termination_by delta

/-- The bias after the count `delta` has led to a label of `size` letters. -/
def adapt (delta size : Nat) (first : Bool) : Nat :=
  let d := if first then delta / 700 else delta / 2
  let (d, k) := shrink (d + d / size) 0
  k + 36 * d / (d + 38)

def count (bias k n : Nat) : List Char :=
  let t := threshold bias k
  if n < t then [digit n]
  else digit (t + (n - t) % (36 - t)) :: count bias (k + 36) ((n - t) / (36 - t))
termination_by n
decreasing_by
  have := (threshold_bounds bias k).1
  exact Nat.lt_of_le_of_lt (Nat.div_le_self _ _) (by omega)

/-- What is written so far. -/
structure Writer where
  /-- The digits, the latest first. -/
  out : List Char
  delta : Nat
  /-- The bias for the next count. -/
  bias : Nat
  placed : Nat

/-- Goes past one letter of the label while the letters `n` are inserted. -/
def Writer.step (basic n : Nat) (w : Writer) (c : Char) : Writer :=
  if c.toNat < n then { w with delta := w.delta + 1 }
  else if c.toNat = n then
    { out := (count w.bias 36 w.delta).reverse ++ w.out
      delta := 0
      bias := adapt w.delta (w.placed + 1) (w.placed == basic)
      placed := w.placed + 1 }
  else w

/-- Inserts the letters of the list, which rises; `n` is the letter that is next in turn. -/
def Writer.insert (label : List Char) (basic : Nat) (n : Nat) (w : Writer) : List Nat → Writer
  | [] => w
  | m :: rest =>
    let w := { w with delta := w.delta + (m - n) * (w.placed + 1) }
    let w := label.foldl (step basic m) w
    insert label basic (m + 1) { w with delta := w.delta + 1 } rest

def rising (ns : List Nat) : List Nat := (ns.mergeSort (· ≤ ·)).eraseDups

def encode (label : List Char) : List Char :=
  let basic := label.filter fun c => c.toNat < 128
  let others := rising ((label.filter fun c => 128 ≤ c.toNat).map (·.toNat))
  let w := Writer.insert label basic.length 128 ⟨[], 0, 72, basic.length⟩ others
  (if basic = [] then [] else basic ++ ['-']) ++ w.out.reverse

/-- What is read so far. -/
structure Reader where
  label : List Char
  letter : Nat
  place : Nat
  /-- The bias for the next count. -/
  bias : Nat
  delta : Nat
  /-- What its next digit is worth. -/
  weight : Nat
  /-- The position of its next digit, as for `threshold`. -/
  k : Nat

/-- Goes the steps of a count that is complete, and inserts a letter. -/
def Reader.insert? (r : Reader) (delta : Nat) : Option Reader :=
  let size := r.label.length + 1
  let i := r.place + delta
  let n := r.letter + i / size
  if n < 0xD800 ∨ (0xDFFF < n ∧ n < 0x110000) then
    some
      { label := r.label.take (i % size) ++ Char.ofNat n :: r.label.drop (i % size)
        letter := n
        place := i % size + 1
        bias := adapt delta size (r.place == 0)
        delta := 0
        weight := 1
        k := 36 }
  else none

def Reader.read? (r : Reader) : List Char → Option (List Char)
  | [] => if r.k = 36 then some r.label else none
  | c :: cs =>
    match digitVal? c with
    | none => none
    | some d =>
      let t := threshold r.bias r.k
      let delta := r.delta + d * r.weight
      if d < t then (r.insert? delta).bind fun r => r.read? cs
      else
        { r with delta, weight := r.weight * (36 - t), k := r.k + 36 }.read? cs

/-- The part before the last hyphen and the part after it; without a hyphen all is the latter. -/
def split (cs : List Char) : List Char × List Char :=
  let tail := (cs.reverse.takeWhile (· != '-')).reverse
  (cs.take (cs.length - tail.length - 1), tail)

def decode? (cs : List Char) : Option (List Char) :=
  let (basic, counts) := split cs
  Reader.read? ⟨basic, 128, 0, 72, 0, 1, 36⟩ counts

end Outbox.Url.Punycode
