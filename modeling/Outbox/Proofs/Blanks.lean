import Mathlib.Data.List.DropRight
import Outbox.Text.Blank

/-! # Texts between white space

Stripping takes the longest front and the longest back off a text whose characters are all of one
sort. So what remains begins and ends with other characters, and the text is what remains between
two runs of that sort, in one way only.
-/

namespace Outbox.Text

variable {p : Char → Bool} {cs t : List Char}

/-- Neither the first character nor the last one is of the sort `p`. -/
structure Tight (p : Char → Bool) (cs : List Char) : Prop where
  head : ∀ c ∈ cs.head?, p c = false
  last : ∀ c ∈ cs.getLast?, p c = false

theorem Tight.of_forall (other : ∀ c ∈ cs, p c = false) : Tight p cs where
  head c first := other c (List.mem_of_head? first)
  last c last := other c (List.mem_of_getLast? last)

/-- The text is `t` between two runs of characters of the sort `p`. -/
def Padded (p : Char → Bool) (t cs : List Char) : Prop :=
  ∃ l r, (∀ c ∈ l, p c = true) ∧ (∀ c ∈ r, p c = true) ∧ cs = l ++ t ++ r

theorem Padded.refl (p : Char → Bool) (t : List Char) : Padded p t t :=
  ⟨[], [], by simp, by simp, by simp⟩

theorem head?_dropWhile {c : Char} (first : c ∈ (cs.dropWhile p).head?) : p c = false := by
  have other := List.head?_dropWhile_not p cs
  rw [Option.mem_def.mp first] at other
  simpa using other

theorem dropWhile_eq_self (head : ∀ c ∈ cs.head?, p c = false) : cs.dropWhile p = cs := by
  cases cs with
  | nil => rfl
  | cons c cs => rw [List.dropWhile_cons_of_neg (by simp [head c rfl])]

theorem strip_eq (p : Char → Bool) (cs : List Char) :
    strip p cs = (cs.dropWhile p).rdropWhile p := rfl

theorem tight_strip (p : Char → Bool) (cs : List Char) : Tight p (strip p cs) where
  head c first := by
    obtain ⟨rest, whole⟩ := List.rdropWhile_prefix p (l := cs.dropWhile p)
    have front : c ∈ (cs.dropWhile p).head? := by
      rw [← whole, List.head?_append, ← strip_eq, Option.mem_def.mp first]
      rfl
    exact head?_dropWhile front
  last c last := by
    rw [strip, List.getLast?_reverse] at last
    exact head?_dropWhile last

theorem padded_strip (p : Char → Bool) (cs : List Char) : Padded p (strip p cs) cs := by
  refine ⟨cs.takeWhile p, (cs.dropWhile p).rtakeWhile p, fun c => List.mem_takeWhile_imp,
    fun c => List.mem_rtakeWhile_imp, ?_⟩
  rw [List.append_assoc, strip_eq, List.rdropWhile_append_rtakeWhile,
    List.takeWhile_append_dropWhile]

theorem strip_of_padded (tight : Tight p t) (padded : Padded p t cs) : strip p cs = t := by
  obtain ⟨l, r, front, back, rfl⟩ := padded
  rw [strip, List.append_assoc, List.dropWhile_append_of_pos front]
  cases t with
  | nil =>
    have empty : r.dropWhile p = [] := List.dropWhile_eq_nil_iff.mpr back
    rw [List.nil_append, empty]
    rfl
  | cons c t =>
    have begins : ∀ d ∈ (c :: t ++ r).head?, p d = false := tight.head
    have back' : ∀ d ∈ r.reverse, p d = true := fun d member => back d (List.mem_reverse.mp member)
    have ends : ∀ d ∈ (c :: t).reverse.head?, p d = false := by
      rw [List.head?_reverse]
      exact tight.last
    rw [dropWhile_eq_self begins, List.reverse_append, List.dropWhile_append_of_pos back',
      dropWhile_eq_self ends, List.reverse_reverse]

/-- What remains of a text is the one text without such ends that it is a padded form of. -/
theorem strip_eq_iff : strip p cs = t ↔ Tight p t ∧ Padded p t cs := by
  constructor
  · rintro rfl
    exact ⟨tight_strip p cs, padded_strip p cs⟩
  · rintro ⟨tight, padded⟩
    exact strip_of_padded tight padded

theorem toList_trim (s : String) : (trim s).toList = strip isBlank s.toList :=
  String.toList_ofList

theorem trim_trim (s : String) : trim (trim s) = trim s := by
  rw [trim, toList_trim, strip_of_padded (tight_strip isBlank s.toList) (Padded.refl isBlank _)]
  rfl

theorem trim_eq_empty_iff {s : String} : trim s = "" ↔ ∀ c ∈ s.toList, isBlank c = true := by
  rw [trim, String.ofList_eq_empty_iff, strip_eq_iff]
  constructor
  · rintro ⟨-, l, r, front, back, whole⟩ c member
    rw [whole, List.append_nil, List.mem_append] at member
    exact member.elim (front c) (back c)
  · intro blank
    exact ⟨⟨by simp, by simp⟩, s.toList, [], blank, by simp, by simp⟩

end Outbox.Text
