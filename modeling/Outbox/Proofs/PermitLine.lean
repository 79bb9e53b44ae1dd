import Mathlib.Data.List.Nodup
import Outbox.Permits

/-! # The line at the permits

Who holds a permit and who waits for one stand in one line, in the order in which they asked: the
first ones hold, as many as there are permits, and the others wait. A request goes to the end of the
line, and whoever leaves closes the gap behind him. So no permit is ever idle while someone waits.
-/

namespace Outbox

namespace Permits

variable {α : Type} {n : Nat} {line : List α}

/-- So many permits with this line. -/
def ofLine (n : Nat) (line : List α) : Permits α := ⟨n, line.take n, line.drop n⟩

@[simp]
theorem ofLine_holders : (ofLine n line).holders = line.take n := rfl

@[simp]
theorem ofLine_waiting : (ofLine n line).waiting = line.drop n := rfl

theorem ofLine_nil (n : Nat) : ofLine n ([] : List α) = ofCapacity n := by
  simp [ofLine, ofCapacity]

theorem holders_length_le (n : Nat) (line : List α) : (ofLine n line).holders.length ≤ n := by
  rw [ofLine_holders, List.length_take]
  exact Nat.min_le_left _ _

/-- The free permits go to the first who wait. -/
theorem grant_eq {holders waiting : List α} (within : holders.length ≤ n) :
    (⟨n, holders, waiting⟩ : Permits α).grant =
      (ofLine n (holders ++ waiting), waiting.take (n - holders.length)) := by
  simp [grant, ofLine, List.take_append, List.drop_append, List.take_of_length_le within,
    List.drop_eq_nil_of_le within]

theorem request_ofLine (n : Nat) (line : List α) (a : α) :
    (ofLine n line).request a =
      (ofLine n (line ++ [a]), if line.length < n then [a] else []) := by
  unfold request
  rw [show (ofLine n line).capacity = n from rfl, grant_eq (holders_length_le n line)]
  simp only [ofLine_holders, ofLine_waiting, ← List.append_assoc, List.take_append_drop]
  congr 1
  split
  case isTrue room =>
    have nobody : line.drop n = [] := List.drop_eq_nil_of_le (by omega)
    rw [nobody, List.nil_append, List.take_of_length_le]
    simp only [List.length_take, List.length_singleton]
    omega
  case isFalse full =>
    have taken : n - (line.take n).length = 0 := by
      simp only [List.length_take]
      omega
    rw [taken, List.take_zero]

variable [DecidableEq α]

theorem holds_ofLine {a : α} : (ofLine n line).holds a = true ↔ a ∈ line.take n := by
  rw [holds, decide_eq_true_iff, ofLine_holders]

/-- What becomes of the line when someone leaves it. -/
theorem leave_ofLine (n : Nat) (nodup : line.Nodup) (a : α) :
    (ofLine n line).leave a =
      (ofLine n (line.erase a), if a ∈ line.take n then (line.drop n).take 1 else []) := by
  have within : ((line.take n).erase a).length ≤ n :=
    Nat.le_trans List.erase_sublist.length_le (holders_length_le n line)
  have parts : line.take n ++ line.drop n = line := List.take_append_drop n line
  have apart : (line.take n).Disjoint (line.drop n) := by
    rw [← parts] at nodup
    exact List.disjoint_of_nodup_append nodup
  unfold leave
  rw [show (ofLine n line).capacity = n from rfl, ofLine_holders, ofLine_waiting,
    grant_eq within]
  by_cases holds : a ∈ line.take n
  · have elsewhere : a ∉ line.drop n := apart holds
    have closed : (line.take n).erase a ++ line.drop n = line.erase a := by
      conv_rhs => rw [← parts, List.erase_append_left _ holds]
    rw [List.erase_of_not_mem elsewhere, closed, if_pos holds, List.length_erase_of_mem holds]
    congr 1
    rcases Nat.lt_or_ge n line.length with long | short
    · have some_ : 0 < (line.take n).length := List.length_pos_of_mem holds
      congr 1
      simp only [List.length_take] at some_ ⊢
      omega
    · rw [List.drop_eq_nil_of_le short, List.take_nil, List.take_nil]
  · have closed : line.take n ++ (line.drop n).erase a = line.erase a := by
      conv_rhs => rw [← parts, List.erase_append_right _ holds]
    rw [List.erase_of_not_mem holds, closed, if_neg holds]
    congr 1
    rcases Nat.lt_or_ge n line.length with long | short
    · have taken : n - (line.take n).length = 0 := by
        simp only [List.length_take]
        omega
      rw [taken, List.take_zero]
    · rw [List.drop_eq_nil_of_le short, List.erase_nil, List.take_nil]

end Permits

/-! ## What happened to whom -/

section

variable {ε : Type} [DecidableEq ε]

/-- The event happened, after the first one with the property. -/
def happenedSince (came : ε → Bool) : List ε → ε → Bool
  | [], _ => false
  | e :: events, event => if came e then events.contains event else happenedSince came events event

theorem happenedSince_of_never {came : ε → Bool} {events : List ε} (never : events.any came = false)
    (event : ε) : happenedSince came events event = false := by
  induction events with
  | nil => rfl
  | cons e events ih =>
    rw [List.any_cons, Bool.or_eq_false_iff] at never
    rw [happenedSince, never.1, ih never.2]
    rfl

theorem happenedSince_concat (came : ε → Bool) (events : List ε) (last event : ε) :
    happenedSince came (events ++ [last]) event =
      (happenedSince came events event || (events.any came && decide (event = last))) := by
  induction events with
  | nil => simp [happenedSince]
  | cons e events ih =>
    simp only [List.cons_append, happenedSince, List.any_cons]
    split
    case isTrue first =>
      simp [first]
    case isFalse other =>
      simp [other, ih]

end

end Outbox
