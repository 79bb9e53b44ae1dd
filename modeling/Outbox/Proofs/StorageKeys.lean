import Outbox.Storage.Store

/-! # Storage keys read back

The name of a key is read back as that key, whatever its id holds: the suffix is taken off the end
and the first two separators end the time and the kind, neither of which can hold one.
-/

namespace Outbox.Text.Decimal

theorem mem_ofNat {n : Nat} {c : Char} (h : c ∈ ofNat n) : ∃ d < 10, c = digitChar d := by
  induction n using ofNat.induct with
  | case1 n small =>
    rw [ofNat, if_pos small, List.mem_singleton] at h
    exact ⟨n, small, h⟩
  | case2 n large ih =>
    rw [ofNat, if_neg large] at h
    rcases List.mem_append.mp h with front | last
    · exact ih front
    · exact ⟨n % 10, Nat.mod_lt n (by decide), List.mem_singleton.mp last⟩

theorem digitChar_plain {d : Nat} (h : d < 10) : digitChar d ≠ '_' ∧ digitChar d ≠ '.' := by
  have all : ∀ d : Fin 10, digitChar d.val ≠ '_' ∧ digitChar d.val ≠ '.' := by decide
  exact all ⟨d, h⟩

/-- The text of an integer holds digits and a minus sign. -/
theorem mem_ofInt {i : Int} {c : Char} (h : c ∈ ofInt i) : c = '-' ∨ ∃ d < 10, c = digitChar d := by
  unfold ofInt at h
  split at h
  · rcases List.mem_cons.mp h with rfl | h
    · exact .inl rfl
    · exact .inr (mem_ofNat h)
  · exact .inr (mem_ofNat h)

/-- The text of an integer holds neither separators nor points. -/
theorem mem_ofInt_plain {i : Int} {c : Char} (h : c ∈ ofInt i) : c ≠ '_' ∧ c ≠ '.' := by
  rcases mem_ofInt h with rfl | ⟨d, small, rfl⟩
  · decide
  · exact digitChar_plain small

theorem ofInt_ne_nil (i : Int) : ofInt i ≠ [] := by
  unfold ofInt
  split
  · simp
  · exact ofNat_ne_nil _

end Outbox.Text.Decimal

namespace Outbox.Storage

namespace Key

theorem cut_append {a : List Char} (plain : ∀ c ∈ a, c ≠ '_') (b : List Char) :
    cut (a ++ '_' :: b) = some (a, b) := by
  induction a with
  | nil => rfl
  | cons c a ih =>
    have rest := ih fun d member => plain d (List.mem_cons_of_mem _ member)
    rw [List.cons_append, cut, if_neg (plain c (by simp)), rest]
    rfl

theorem stem?_append (cs : List Char) : stem? (cs ++ keySuffix) = some cs := by
  rw [stem?, if_pos (by simp), List.length_append, Nat.add_sub_cancel, List.take_left']
  rfl

theorem kind_plain (kind : Kind) : ∀ c ∈ kind.name.toList, c ≠ '_' := by
  cases kind <;> simp [Kind.name]

/-- The name of a key is read back as that key. -/
theorem ofName?_name (k : Key) : ofName? k.name = .ok k := by
  have text : k.name.toList = k.chars := String.toList_ofList
  have shape : k.chars = (Text.Decimal.ofInt k.timestamp.val ++
      '_' :: (k.kind.name.toList ++ '_' :: k.id.toList)) ++ keySuffix := by
    simp [chars]
  have time : ∀ c ∈ Text.Decimal.ofInt k.timestamp.val, c ≠ '_' :=
    fun c member => (Text.Decimal.mem_ofInt_plain member).1
  rw [ofName?, text, shape, stem?_append]
  simp only [cut_append time, cut_append (kind_plain k.kind), Text.Decimal.readRanged?_ofInt,
    String.ofList_toList, Kind.ofName?_name]
  rw [make, dif_pos k.valid]

/-- No character of a name is forbidden in an id. -/
theorem isForbidden_of_mem_name {k : Key} {c : Char} (member : c ∈ k.name.toList) :
    isForbidden c = false := by
  have ofTime : c ∈ Text.Decimal.ofInt k.timestamp.val → isForbidden c = false := by
    have digits : ∀ d : Fin 10, isForbidden (Text.Decimal.digitChar d.val) = false := by decide
    intro inside
    rcases Text.Decimal.mem_ofInt inside with rfl | ⟨d, small, rfl⟩
    · decide
    · exact digits ⟨d, small⟩
  have ofKind : k.kind.name.toList.any isForbidden = false := by
    cases k.kind <;> rfl
  have ofId : k.id.toList.any isForbidden = false := by
    have valid := k.valid
    simp only [validId, Bool.and_eq_true, Bool.not_eq_true'] at valid
    exact valid.2
  have ofSuffix : keySuffix.any isForbidden = false := rfl
  rw [name, String.toList_ofList, chars] at member
  simp only [List.mem_append, List.mem_cons] at member
  rcases member with ((time | rfl | kind) | rfl | id) | suffix
  · exact ofTime time
  · decide
  · exact Bool.eq_false_iff.mpr (List.any_eq_false.mp ofKind c kind)
  · decide
  · exact Bool.eq_false_iff.mpr (List.any_eq_false.mp ofId c id)
  · exact Bool.eq_false_iff.mpr (List.any_eq_false.mp ofSuffix c suffix)

theorem name_injective : Function.Injective name := by
  intro a b same
  have read := ofName?_name a
  rw [same, ofName?_name b] at read
  exact (Except.ok.inj read).symm

end Key

namespace Store

theorem isTemporary_of_head {name : String} {c : Char} {cs : List Char}
    (text : name.toList = c :: cs) (first : c ≠ '.') : isTemporary name = false := by
  have temporary : ".tmp-".toList = ['.', 't', 'm', 'p', '-'] := by decide
  rw [isTemporary, text, temporary, Bool.eq_false_iff]
  intro h
  exact first (List.cons_prefix_cons.mp (List.isPrefixOf_iff_prefix.mp h)).1.symm

/-- A name of the store is never taken for one of a file that is still being written. -/
theorem isTemporary_name (k : Key) : isTemporary k.name = false := by
  have text : k.name.toList = k.chars := String.toList_ofList
  obtain ⟨c, cs, shape⟩ := List.exists_cons_of_ne_nil (Text.Decimal.ofInt_ne_nil k.timestamp.val)
  have first : c ≠ '.' := (Text.Decimal.mem_ofInt_plain (by rw [shape]; simp)).2
  rw [Key.chars, shape] at text
  exact isTemporary_of_head text first

theorem keyOf?_name (k : Key) : keyOf? k.name = some k := by
  rw [keyOf?, isTemporary_name, Key.ofName?_name]
  rfl

end Store

end Outbox.Storage
