import Outbox.Proofs.QueueContents

/-! # Deliveries put in their places

A delivery goes in front of the first one that was made after it, or takes the place of the one with
its id. Where deliveries with one id have one stamp, and others have stamps of their own, it makes
no difference which of two goes first, nor whether some leave before or after.
-/

namespace Outbox

namespace Pending

variable {a b c : Pending}

theorem isBefore_of_stamp_ne (apart : a.stamp ≠ b.stamp) :
    a.isBefore b = true ∨ b.isBefore a = true := by
  by_contra neither
  obtain ⟨first, second⟩ := not_or.mp neither
  exact apart (eq_of_not_isBefore (Bool.eq_false_iff.mpr first) (Bool.eq_false_iff.mpr second))

theorem isBefore_of_not_before (first : a.isBefore b = true) (later : c.isBefore b = false) :
    a.isBefore c = true := by
  simp only [isBefore, Bool.or_eq_true, Bool.or_eq_false_iff, Bool.and_eq_true,
    Bool.and_eq_false_iff, decide_eq_true_eq, decide_eq_false_iff_not, beq_iff_eq,
    beq_eq_false_iff_ne] at *
  omega

end Pending

namespace Queue

variable {a b p : Pending} {ps qs ps' : List Pending}

/-! ## One delivery -/

/-- The list with the delivery in the place of those with its id. -/
def replaced (p : Pending) (qs : List Pending) : List Pending :=
  qs.map fun q => if q.id == p.id then p else q

theorem insert_eq (p : Pending) (qs : List Pending) : insert p qs =
    if qs.any fun q => q.id == p.id then replaced p qs else insertSorted p qs := rfl

theorem id_replaced (p q : Pending) : (if q.id == p.id then p else q).id = q.id := by
  by_cases same : q.id = p.id <;> simp [same]

theorem any_id_replaced (p : Pending) (qs : List Pending) (id : String) :
    ((replaced p qs).any fun q => q.id == id) = qs.any fun q => q.id == id := by
  rw [replaced, List.any_map]
  simp only [Function.comp_def, id_replaced]

theorem any_id_insertSorted (p : Pending) (qs : List Pending) (id : String) :
    ((insertSorted p qs).any fun q => q.id == id) = (p.id == id || qs.any fun q => q.id == id) := by
  rw [(insertSorted_perm p qs).any_eq, List.any_cons]

/-- The ids that are there with one more delivery. -/
theorem any_id_insert (p : Pending) (qs : List Pending) (id : String) :
    ((insert p qs).any fun q => q.id == id) = (p.id == id || qs.any fun q => q.id == id) := by
  rw [insert_eq]
  split
  case isTrue found =>
    rw [any_id_replaced]
    by_cases own : p.id = id
    · rw [← own, found, Bool.or_true]
    · simp [own]
  case isFalse => exact any_id_insertSorted p qs id

theorem insertSorted_comm_of_before (before : a.isBefore b = true) (qs : List Pending) :
    insertSorted a (insertSorted b qs) = insertSorted b (insertSorted a qs) := by
  have after := Pending.isBefore_asymm before
  induction qs with
  | nil => simp [insertSorted, before, after]
  | cons q qs ih =>
    cases second : b.isBefore q with
    | true =>
      have first := Pending.isBefore_trans before second
      simp [insertSorted, before, after, first, second]
    | false => cases first : a.isBefore q <;> simp [insertSorted, after, first, second, ih]

theorem insertSorted_comm (apart : a.stamp ≠ b.stamp) (qs : List Pending) :
    insertSorted a (insertSorted b qs) = insertSorted b (insertSorted a qs) := by
  rcases Pending.isBefore_of_stamp_ne apart with before | before
  · exact insertSorted_comm_of_before before qs
  · exact (insertSorted_comm_of_before before qs).symm

theorem replaced_comm (other : a.id ≠ b.id) (qs : List Pending) :
    replaced a (replaced b qs) = replaced b (replaced a qs) := by
  unfold replaced
  rw [List.map_map, List.map_map]
  refine List.map_congr_left fun q _ => ?_
  by_cases first : q.id = a.id
  · simp [first, other]
  · by_cases second : q.id = b.id
    · simp [second, Ne.symm other]
    · simp [first, second]

/-- What takes the place of another with its stamp is passed like that one. -/
theorem replaced_insertSorted (other : b.id ≠ a.id)
    (same : ∀ q ∈ qs, q.id = a.id → q.stamp = a.stamp) :
    replaced a (insertSorted b qs) = insertSorted b (replaced a qs) := by
  induction qs with
  | nil => simp [replaced, insertSorted, other]
  | cons q qs ih =>
    obtain ⟨first, rest⟩ := List.forall_mem_cons.mp same
    have passed : b.isBefore (if q.id == a.id then a else q) = b.isBefore q := by
      split
      case isTrue equal =>
        exact (Pending.isBefore_of_stamp (first (beq_iff_eq.mp equal)) b).1.symm
      case isFalse => rfl
    have ih := ih rest
    unfold replaced at ih ⊢
    rw [insertSorted, List.map_cons, insertSorted, passed]
    split
    · simp [other]
    · rw [List.map_cons, ih]

/-- It makes no difference which of two deliveries goes first. -/
theorem insert_comm (other : a.id ≠ b.id) (apart : a.stamp ≠ b.stamp)
    (same : ∀ q ∈ qs, q.id = a.id → q.stamp = a.stamp)
    (same' : ∀ q ∈ qs, q.id = b.id → q.stamp = b.stamp) :
    insert a (insert b qs) = insert b (insert a qs) := by
  have ne : (b.id == a.id) = false := beq_eq_false_iff_ne.mpr (Ne.symm other)
  have ne' : (a.id == b.id) = false := beq_eq_false_iff_ne.mpr other
  simp only [insert_eq]
  cases found : qs.any (fun q => q.id == a.id) <;> cases found' : qs.any (fun q => q.id == b.id)
  case false.false =>
    simp [any_id_insertSorted, ne, ne', found, found', insertSorted_comm apart]
  case false.true =>
    simp [any_id_insertSorted, any_id_replaced, found, found', replaced_insertSorted other same']
  case true.false =>
    simp [any_id_insertSorted, any_id_replaced, found, found',
      replaced_insertSorted other.symm same]
  case true.true => simp [any_id_replaced, found, found', replaced_comm other]

/-! ## Deliveries that leave -/

theorem insertSorted_of_first (first : ∀ q ∈ qs, p.isBefore q = true) :
    insertSorted p qs = p :: qs := by
  cases qs with
  | nil => rfl
  | cons q qs => rw [insertSorted, if_pos (first q List.mem_cons_self)]

theorem filter_insertSorted_of_kept {good : Pending → Bool} (sorted : Sorted qs)
    (kept : good p = true) : (insertSorted p qs).filter good = insertSorted p (qs.filter good) := by
  induction qs with
  | nil => simp [insertSorted, kept]
  | cons q qs ih =>
    obtain ⟨first, rest⟩ := List.pairwise_cons.mp sorted
    cases before : p.isBefore q with
    | true =>
      -- all that come later stay behind the delivery
      have front : insertSorted p ((q :: qs).filter good) = p :: (q :: qs).filter good := by
        refine insertSorted_of_first fun x member => ?_
        rcases List.mem_cons.mp (List.mem_of_mem_filter member) with rfl | later
        · exact before
        · exact Pending.isBefore_of_not_before before (first x later)
      rw [insertSorted, if_pos before, List.filter_cons_of_pos kept]
      exact front.symm
    | false =>
      have passed : ¬p.isBefore q = true := by simp [before]
      rw [insertSorted, if_neg passed]
      cases stays : good q with
      | true =>
        rw [List.filter_cons_of_pos stays, List.filter_cons_of_pos stays, ih rest, insertSorted,
          if_neg passed]
      | false =>
        have leaves : ¬good q = true := by simp [stays]
        rw [List.filter_cons_of_neg leaves, List.filter_cons_of_neg leaves, ih rest]

theorem filter_insertSorted_of_gone {good : Pending → Bool} (gone : good p = false) :
    (insertSorted p qs).filter good = qs.filter good := by
  have leaves : ¬good p = true := by simp [gone]
  induction qs with
  | nil => exact List.filter_cons_of_neg leaves
  | cons q qs ih =>
    unfold insertSorted
    split
    · rw [List.filter_cons_of_neg leaves]
    · rw [List.filter_cons, ih, List.filter_cons]

theorem filter_replaced (good : String → Bool) (p : Pending) (qs : List Pending) :
    (replaced p qs).filter (fun q => good q.id) = replaced p (qs.filter fun q => good q.id) := by
  unfold replaced
  rw [List.filter_map]
  simp only [Function.comp_def, id_replaced]

/-- Deliveries that leave make no difference to one that stays. -/
theorem filter_insert_of_kept {good : String → Bool} (sorted : Sorted qs)
    (kept : good p.id = true) : (insert p qs).filter (fun q => good q.id) =
      insert p (qs.filter fun q => good q.id) := by
  have any : ((qs.filter fun q => good q.id).any fun q => q.id == p.id) =
      qs.any fun q => q.id == p.id := by
    rw [List.any_filter]
    refine List.any_congr rfl fun q => ?_
    by_cases same : q.id = p.id <;> simp [same, kept]
  rw [insert_eq, insert_eq, any]
  split
  · exact filter_replaced good p qs
  · exact filter_insertSorted_of_kept sorted kept

/-- A delivery that leaves makes no difference to those that stay. -/
theorem filter_insert_of_gone {good : String → Bool} (gone : good p.id = false) :
    (insert p qs).filter (fun q => good q.id) = qs.filter fun q => good q.id := by
  rw [insert_eq]
  split
  case isTrue =>
    rw [filter_replaced, replaced]
    refine (List.map_congr_left fun q member => ?_).trans (List.map_id _)
    have other : q.id ≠ p.id := fun same => by
      have stays := (List.mem_filter.mp member).2
      rw [same, gone] at stays
      cases stays
    simp [other]
  case isFalse => exact filter_insertSorted_of_gone gone

/-! ## Deliveries one after the other -/

/-- Deliveries with one id have one stamp. -/
def Agree (ps : List Pending) : Prop := ∀ a ∈ ps, ∀ b ∈ ps, a.id = b.id → a.stamp = b.stamp

theorem Agree.subset (agree : Agree ps) (inside : qs ⊆ ps) : Agree qs :=
  fun a member b member' => agree a (inside member) b (inside member')

/-- The list with some deliveries put in their places, one after the other. -/
def placed (qs ps : List Pending) : List Pending := ps.foldl (fun qs p => insert p qs) qs

theorem placed_concat (qs ps : List Pending) (p : Pending) :
    placed qs (ps ++ [p]) = insert p (placed qs ps) := by
  simp [placed]

theorem any_id_placed (qs ps : List Pending) (id : String) :
    ((placed qs ps).any fun q => q.id == id) = (qs ++ ps).any fun q => q.id == id := by
  induction ps generalizing qs with
  | nil => simp [placed]
  | cons p ps ih =>
    refine (ih (insert p qs)).trans ?_
    rw [List.any_append, List.any_append, any_id_insert, List.any_cons, Bool.or_left_comm,
      Bool.or_assoc]

theorem insert_subset (p : Pending) (qs ps : List Pending) :
    insert p qs ++ ps ⊆ qs ++ p :: ps := by
  intro x member
  rcases List.mem_append.mp member with first | later
  · rcases mem_insert.mp first with rfl | ⟨old, _⟩
    · simp
    · exact List.mem_append_left _ old
  · simp [later]

theorem placed_sorted (agree : Agree (qs ++ ps)) (sorted : Sorted qs) : Sorted (placed qs ps) := by
  induction ps generalizing qs with
  | nil => exact sorted
  | cons p ps ih =>
    refine ih (agree.subset (insert_subset p qs ps)) (insert_sorted sorted fun q member same => ?_)
    exact agree q (List.mem_append_left _ member) p (by simp) same

/-- It makes no difference in which order deliveries with stamps of their own are put in their
places. -/
theorem placed_perm (perm : ps.Perm ps') (agree : Agree (qs ++ ps))
    (stamps : (ps.map Pending.stamp).Nodup) : placed qs ps = placed qs ps' := by
  induction perm generalizing qs with
  | nil => rfl
  | cons p perm ih =>
    exact ih (agree.subset (insert_subset p qs _)) (List.nodup_cons.mp stamps).2
  | swap a b ps =>
    have apart : a.stamp ≠ b.stamp := by
      simp only [List.map_cons, List.nodup_cons, List.mem_cons, not_or] at stamps
      exact Ne.symm stamps.1.1
    have other : a.id ≠ b.id := fun same => apart (agree a (by simp) b (by simp) same)
    show placed (insert a (insert b qs)) ps = placed (insert b (insert a qs)) ps
    rw [insert_comm other apart] <;> intro q member same
    · exact agree q (List.mem_append_left _ member) a (by simp) same
    · exact agree q (List.mem_append_left _ member) b (by simp) same
  | trans first second ih ih' =>
    have inside {ps ps' : List Pending} (perm : ps.Perm ps') : qs ++ ps' ⊆ qs ++ ps :=
      (perm.append_left qs).symm.subset
    exact (ih agree stamps).trans
      (ih' (agree.subset (inside first)) ((first.map _).nodup_iff.mp stamps))

end Queue

end Outbox
