/-! # Integers in a range

Clock readings, delays and counters all have a fixed width. `Ranged lo hi` is an integer together
with the proof that it lies between `lo` and `hi`. `clamp` brings any integer into the range by
stopping at its ends, which is how sums and products of such numbers are formed here, `wrap` counts
on from zero after the last one, as counters do, and `ofInt?` refuses what lies outside.
-/

namespace Outbox

/-- An integer between `lo` and `hi`, ends included. -/
structure Ranged (lo hi : Int) where
  val : Int
  lo_le : lo ≤ val
  le_hi : val ≤ hi
  deriving DecidableEq

namespace Ranged

variable {lo hi : Int}

instance : Repr (Ranged lo hi) where
  reprPrec r n := reprPrec r.val n

/-- Two numbers of one range are equal when their values are. -/
@[ext]
theorem ext {a b : Ranged lo hi} (h : a.val = b.val) : a = b := by
  cases a
  cases b
  cases h
  rfl

def clamp (i : Int) (h : lo ≤ hi := by decide) : Ranged lo hi :=
  ⟨max lo (min i hi), by omega, by omega⟩

/-- `i` in a count that begins again at zero after `hi`. -/
def wrap (i : Int) (h : 0 ≤ hi := by decide) : Ranged 0 hi :=
  ⟨i % (hi + 1), Int.emod_nonneg i (by omega),
    Int.le_of_lt_add_one (Int.emod_lt_of_pos i (by omega))⟩

/-- `i` as a number of the range, if it lies in it. -/
def ofInt? (i : Int) : Option (Ranged lo hi) :=
  if h : lo ≤ i ∧ i ≤ hi then some ⟨i, h.1, h.2⟩ else none

/-- The value as a natural number, for ranges that hold no negative ones. -/
def toNat (r : Ranged lo hi) : Nat := r.val.toNat

theorem val_clamp (i : Int) (h : lo ≤ hi) :
    (clamp i h : Ranged lo hi).val = max lo (min i hi) := rfl

theorem val_clamp_of_mem {i : Int} {h : lo ≤ hi} (h₁ : lo ≤ i) (h₂ : i ≤ hi) :
    (clamp i h : Ranged lo hi).val = i := by
  simp only [val_clamp]
  omega

theorem val_wrap_of_mem {i : Int} {h : 0 ≤ hi} (h₁ : 0 ≤ i) (h₂ : i ≤ hi) :
    (wrap i h : Ranged 0 hi).val = i :=
  Int.emod_eq_of_lt h₁ (by omega)

theorem ofInt?_val (r : Ranged lo hi) : ofInt? r.val = some r := by
  simp [ofInt?, r.lo_le, r.le_hi]

theorem ofInt?_eq_some_iff {i : Int} {r : Ranged lo hi} : ofInt? i = some r ↔ r.val = i := by
  unfold ofInt?
  constructor
  · split
    · intro h
      cases h
      rfl
    · simp
  · intro h
    subst h
    simp [r.lo_le, r.le_hi]

end Ranged

/-- Signed milliseconds in 64 bits: a point in time since the epoch, or a span. -/
abbrev Millis := Ranged (-9223372036854775808) 9223372036854775807

abbrev Word64 := Ranged 0 18446744073709551615

abbrev Word32 := Ranged 0 4294967295

abbrev Word16 := Ranged 0 65535

/-! The bounds have names of their own, so that all numbers that are brought into a range carry the
same proof of them. -/

theorem Millis.bounds : (-9223372036854775808 : Int) ≤ 9223372036854775807 := by decide

theorem Word64.bounds : (0 : Int) ≤ 18446744073709551615 := by decide

theorem Word32.bounds : (0 : Int) ≤ 4294967295 := by decide

instance (n : Nat) : OfNat Millis n := ⟨.clamp n⟩
instance (n : Nat) : OfNat Word64 n := ⟨.clamp n⟩
instance (n : Nat) : OfNat Word32 n := ⟨.clamp n⟩
instance (n : Nat) : OfNat Word16 n := ⟨.clamp n⟩

namespace Millis

def latest : Millis := .clamp 9223372036854775807

/-- `t` moved by `span` milliseconds, stopping at the ends of the range. -/
def shift (t : Millis) (span : Int) : Millis := .clamp (t.val + span)

/-- The time that passed from `earlier` to `t`, stopping at the ends of the range. -/
def since (t earlier : Millis) : Millis := .clamp (t.val - earlier.val)

/-- The number of 64 bits read as a signed one: what does not fit turns negative. -/
def ofWord (w : Word64) : Millis :=
  .clamp (Int.bmod w.val 18446744073709551616)

end Millis

end Outbox
