import Outbox.Ranged

/-! # Decimal numbers

Integers are written without leading zeros and with a minus sign where they are negative. They are
read more freely: with either sign and with any number of leading zeros. Main statement: reading
gives back what was written.
-/

namespace Outbox.Text.Decimal

def digitChar (d : Nat) : Char := Char.ofNat (48 + d)

def digitVal? (c : Char) : Option Nat :=
  if 48 ≤ c.toNat ∧ c.toNat ≤ 57 then some (c.toNat - 48) else none

def ofNat (n : Nat) : List Char :=
  if n < 10 then [digitChar n] else ofNat (n / 10) ++ [digitChar (n % 10)]
termination_by n

/-- The digits of `i`, after a minus sign if it is negative. -/
def ofInt (i : Int) : List Char :=
  if i < 0 then '-' :: ofNat i.natAbs else ofNat i.natAbs

/-- The number that the digits continue, when `acc` is what stands before them. -/
def readDigits (acc : Nat) : List Char → Option Nat
  | [] => some acc
  | c :: cs =>
    match digitVal? c with
    | some d => readDigits (acc * 10 + d) cs
    | none => none

def readNat? : List Char → Option Nat
  | [] => none
  | cs => readDigits 0 cs

/-- The number written by one or more digits, after an optional sign. -/
def readInt? : List Char → Option Int
  | '+' :: cs => (readNat? cs).map Int.ofNat
  | '-' :: cs => (readNat? cs).map fun n => -Int.ofNat n
  | cs => (readNat? cs).map Int.ofNat

/-- The number of the range written by the text. A minus sign is accepted only if the range has
    negative numbers. -/
def readRanged? {lo hi : Int} (cs : List Char) : Option (Ranged lo hi) :=
  if cs.head? = some '-' ∧ 0 ≤ lo then none else (readInt? cs).bind Ranged.ofInt?

theorem digitVal?_digitChar {d : Nat} (h : d < 10) : digitVal? (digitChar d) = some d := by
  have : ∀ d : Fin 10, digitVal? (digitChar d.val) = some d.val := by decide
  exact this ⟨d, h⟩

theorem readDigits_append (acc : Nat) (xs ys : List Char) :
    readDigits acc (xs ++ ys) = (readDigits acc xs).bind fun n => readDigits n ys := by
  induction xs generalizing acc with
  | nil => rfl
  | cons c cs ih =>
    simp only [List.cons_append, readDigits]
    cases digitVal? c with
    | none => rfl
    | some d => exact ih _

theorem readDigits_ofNat (n : Nat) : readDigits 0 (ofNat n) = some n := by
  induction n using Nat.strongRecOn with
  | _ n ih =>
    rw [ofNat]
    split
    · next h => simp [readDigits, digitVal?_digitChar h]
    · next h =>
      rw [readDigits_append, ih (n / 10) (by omega)]
      simp only [Option.bind_some, readDigits,
        digitVal?_digitChar (Nat.mod_lt n (by decide : 10 > 0))]
      congr 1
      omega

theorem ofNat_ne_nil (n : Nat) : ofNat n ≠ [] := by
  rw [ofNat]
  split <;> simp

theorem readNat?_ofNat (n : Nat) : readNat? (ofNat n) = some n := by
  cases h : ofNat n with
  | nil => exact absurd h (ofNat_ne_nil n)
  | cons c cs =>
    rw [readNat?, ← h]
    · exact readDigits_ofNat n
    · simp

/-- The first character of a written natural number is a digit. -/
theorem head_ofNat (n : Nat) : ∃ d cs, d < 10 ∧ ofNat n = digitChar d :: cs := by
  induction n using Nat.strongRecOn with
  | _ n ih =>
    rw [ofNat]
    split
    · next h => exact ⟨n, [], h, rfl⟩
    · next h =>
      obtain ⟨d, cs, hd, hcs⟩ := ih (n / 10) (by omega)
      exact ⟨d, cs ++ [digitChar (n % 10)], hd, by rw [hcs, List.cons_append]⟩

theorem digitChar_ne_sign {d : Nat} (h : d < 10) : digitChar d ≠ '-' ∧ digitChar d ≠ '+' := by
  have : ∀ d : Fin 10, digitChar d.val ≠ '-' ∧ digitChar d.val ≠ '+' := by decide
  exact this ⟨d, h⟩

theorem readInt?_ofNat (n : Nat) : readInt? (ofNat n) = some (n : Int) := by
  have hn := readNat?_ofNat n
  obtain ⟨d, cs, hd, hcs⟩ := head_ofNat n
  rw [hcs] at hn ⊢
  obtain ⟨h₁, h₂⟩ := digitChar_ne_sign hd
  rw [readInt?]
  · rw [hn]
    rfl
  · intro cs' h
    exact h₂ (List.cons.inj h).1
  · intro cs' h
    exact h₁ (List.cons.inj h).1

theorem readInt?_ofInt (i : Int) : readInt? (ofInt i) = some i := by
  unfold ofInt
  split
  · next h =>
    rw [readInt?, readNat?_ofNat]
    simp only [Option.map_some, Option.some.injEq, Int.ofNat_eq_natCast]
    omega
  · next h =>
    rw [readInt?_ofNat]
    simp only [Option.some.injEq]
    omega

/-- Reading gives back what was written, within any range. -/
theorem readRanged?_ofInt {lo hi : Int} (r : Ranged lo hi) :
    readRanged? (ofInt r.val) = some r := by
  unfold readRanged?
  rw [if_neg, readInt?_ofInt, Option.bind_some, Ranged.ofInt?_val]
  rintro ⟨h, h₀⟩
  have := r.lo_le
  unfold ofInt at h
  rw [if_neg (by omega)] at h
  obtain ⟨d, cs, hd, hcs⟩ := head_ofNat r.val.natAbs
  rw [hcs] at h
  exact (digitChar_ne_sign hd).1 (Option.some.inj h)

end Outbox.Text.Decimal

namespace Outbox

def decimal (i : Int) : String := String.ofList (Text.Decimal.ofInt i)

end Outbox
