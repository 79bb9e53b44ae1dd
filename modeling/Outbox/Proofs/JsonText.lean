import Outbox.Proofs.JsonGrammar

/-! # Written values read back

A value whose strings are escaped texts and whose numbers are plain integers is written by the rules
of JSON, so it is read back as it was.
-/

namespace Outbox.Json

/-! ## Strings -/

theorem hexVal?_hexDigit {n : Nat} (h : n < 16) : hexVal? (hexDigit n) = some n := by
  have all : ∀ n : Fin 16, hexVal? (hexDigit n.val) = some n.val := by decide
  exact all ⟨n, h⟩

theorem escapeByte_cases (x : UInt8) :
    (∃ e, escapeByte x = [backslash, e] ∧ unescapeLetter? e = some x) ∨
    (∃ h l, escapeByte x = [backslash, 0x75, 0x30, 0x30, h, l] ∧
      codeUnit? 0x30 0x30 h l = some x.toNat ∧ x < 0x20) ∨
    (escapeByte x = [x] ∧ x ≠ quote ∧ x ≠ backslash ∧ ¬ x < 0x20) := by
  unfold escapeByte
  split
  · next h => subst h; exact .inl ⟨quote, rfl, rfl⟩
  split
  · next h => subst h; exact .inl ⟨backslash, rfl, rfl⟩
  split
  · next h => subst h; exact .inl ⟨0x62, rfl, rfl⟩
  split
  · next h => subst h; exact .inl ⟨0x74, rfl, rfl⟩
  split
  · next h => subst h; exact .inl ⟨0x6E, rfl, rfl⟩
  split
  · next h => subst h; exact .inl ⟨0x66, rfl, rfl⟩
  split
  · next h => subst h; exact .inl ⟨0x72, rfl, rfl⟩
  split
  · next control =>
    refine .inr (.inl ⟨_, _, rfl, ?_, control⟩)
    have small : x.toNat < 32 := control
    have zero : hexVal? 0x30 = some 0 := by decide
    simp only [codeUnit?, zero, hexVal?_hexDigit (show x.toNat / 16 < 16 by omega),
      hexVal?_hexDigit (show x.toNat % 16 < 16 by omega)]
    congr 1
    omega
  · next notQuote notBackslash _ _ _ _ _ plain =>
    exact .inr (.inr ⟨rfl, notQuote, notBackslash, plain⟩)

theorem chars_escape (b : Bytes) : Chars (escape b) := by
  induction b with
  | nil => exact .nil
  | cons x b ih =>
    rw [escape, List.flatMap_cons]
    obtain ⟨e, written, letter⟩ | ⟨h, l, written, unit, _⟩ |
      ⟨written, notQuote, notBackslash, plain⟩ := escapeByte_cases x
    · exact written ▸ .letter letter ih
    · exact written ▸ .unit unit ih
    · exact written ▸ .plain notQuote notBackslash plain ih

theorem utf8EncodeChar_control {x : UInt8} (h : x < 0x20) :
    String.utf8EncodeChar (Char.ofNat x.toNat) = [x] := by
  have all : ∀ n : Fin 32, String.utf8EncodeChar (Char.ofNat n.val) = [n.val.toUInt8] := by decide
  simpa using all ⟨x.toNat, h⟩

theorem unescapes_escape (b : Bytes) : Unescapes (escape b) b := by
  induction b with
  | nil => exact .nil
  | cons x b ih =>
    rw [escape, List.flatMap_cons]
    obtain ⟨e, written, letter⟩ | ⟨h, l, written, unit, control⟩ |
      ⟨written, _, notBackslash, _⟩ := escapeByte_cases x
    · exact written ▸ .letter letter ih
    · have small : x.toNat < 32 := control
      have := Unescapes.unit unit (by omega) ih
      rw [utf8EncodeChar_control control] at this
      exact written ▸ this
    · exact written ▸ .plain notBackslash ih

theorem text?_escape (s : String) : text? (escape (Bytes.ofString s)) = some s :=
  text?_eq_some_iff.mpr (unescapes_escape _)

/-! ## Numbers -/

/-- The bytes of a natural number. -/
def numeral (n : Nat) : Bytes := (Text.Decimal.ofNat n).map fun c => c.toNat.toUInt8

theorem digit_byte {d : Nat} (h : d < 10) :
    isDigit (Text.Decimal.digitChar d).toNat.toUInt8 = true ∧
      (Text.Decimal.digitChar d).toNat.toUInt8.toNat = 48 + d := by
  have all : ∀ d : Fin 10, isDigit (Text.Decimal.digitChar d.val).toNat.toUInt8 = true ∧
      (Text.Decimal.digitChar d.val).toNat.toUInt8.toNat = 48 + d.val := by decide
  exact all ⟨d, h⟩

theorem numeral_digits (n : Nat) : ∀ b ∈ numeral n, isDigit b = true := by
  unfold numeral
  induction n using Text.Decimal.ofNat.induct with
  | case1 n small =>
    rw [Text.Decimal.ofNat, if_pos small]
    simpa using (digit_byte small).1
  | case2 n large ih =>
    rw [Text.Decimal.ofNat, if_neg large, List.map_append]
    intro b member
    rcases List.mem_append.mp member with front | last
    · exact ih b front
    · simp only [List.map_cons, List.map_nil, List.mem_singleton] at last
      subst last
      exact (digit_byte (Nat.mod_lt n (by decide))).1

theorem digits?_numeral (n : Nat) : digits? (numeral n) = some n := by
  have value : (numeral n).foldl (fun m b => m * 10 + (b.toNat - 48)) 0 = n := by
    unfold numeral
    induction n using Text.Decimal.ofNat.induct with
    | case1 n small =>
      rw [Text.Decimal.ofNat, if_pos small]
      simp [(digit_byte small).2]
    | case2 n large ih =>
      rw [Text.Decimal.ofNat, if_neg large, List.map_append, List.foldl_append, ih]
      simp only [List.map_cons, List.map_nil, List.foldl_cons, List.foldl_nil,
        (digit_byte (Nat.mod_lt n (by decide))).2]
      omega
  rw [digits?, if_pos (List.all_eq_true.mpr (numeral_digits n)), value]

/-- A numeral begins with a zero only if it is the number zero. -/
theorem numeral_head (n : Nat) :
    ∃ b t, numeral n = b :: t ∧ isDigit b = true ∧ (b = 0x30 → t = []) := by
  unfold numeral
  induction n using Text.Decimal.ofNat.induct with
  | case1 n small =>
    rw [Text.Decimal.ofNat, if_pos small]
    exact ⟨_, [], rfl, (digit_byte small).1, fun _ => rfl⟩
  | case2 n large ih =>
    obtain ⟨b, t, shape, digit, zero⟩ := ih
    rw [Text.Decimal.ofNat, if_neg large, List.map_append, shape]
    refine ⟨b, _, rfl, digit, fun isZero => ?_⟩
    -- the front part is a positive number, so its only digit cannot be a zero
    have front : digits? (numeral (n / 10)) = some (n / 10) := digits?_numeral _
    rw [numeral, shape, zero isZero, isZero] at front
    have : (0 : Nat) = n / 10 := Option.some.inj front
    omega

theorem whole_numeral (n : Nat) : Whole (numeral n) := by
  obtain ⟨b, t, shape, _, zero⟩ := numeral_head n
  refine ⟨⟨by simp [shape], numeral_digits n⟩, fun first => ?_⟩
  obtain rfl : b = 0x30 := by simpa [shape] using first
  rw [shape, zero rfl]

theorem ofInt_eq (i : Int) :
    ofInt i = .number (if i < 0 then 0x2D :: numeral i.natAbs else numeral i.natAbs) := by
  unfold ofInt Text.Decimal.ofInt numeral
  split <;> rfl

/-- An integer is read back within every range that holds it. -/
theorem asRanged?_ofInt {lo hi : Int} (r : Ranged lo hi) :
    asRanged? (ofInt r.val) = some r := by
  rw [ofInt_eq]
  obtain ⟨b, t, shape, digit, _⟩ := numeral_head r.val.natAbs
  by_cases negative : r.val < 0
  · have value : -Int.ofNat r.val.natAbs = r.val := by
      simp only [Int.ofNat_eq_natCast]
      omega
    rw [if_pos negative, asRanged?, digits?_numeral]
    split
    · next h =>
      have : r.val.natAbs = 0 := Option.some.inj h
      omega
    · next h => exact absurd h (by simp)
    · next n h =>
      rw [← Option.some.inj h, value]
      exact Ranged.ofInt?_val r
  · have value : Int.ofNat r.val.natAbs = r.val := by
      simp only [Int.ofNat_eq_natCast]
      omega
    rw [if_neg negative, asRanged?]
    · rw [digits?_numeral, Option.bind_some, value]
      exact Ranged.ofInt?_val r
    · intro ds h
      rw [shape] at h
      exact isDigit_ne_minus digit (List.cons.inj h).1

theorem number_ofInt (i : Int) : ∃ literal, ofInt i = .number literal ∧ Number literal := by
  have unsigned : Unsigned (numeral i.natAbs) := by
    simpa using Unsigned.mk (whole_numeral i.natAbs) .empty .empty
  rw [ofInt_eq]
  split
  · exact ⟨_, rfl, .minus unsigned⟩
  · exact ⟨_, rfl, .plus unsigned⟩

/-! ## Values -/

/-- A value that the writers of records make: its strings are escaped texts, its numbers plain
integers. -/
inductive Written : Json → Prop where
  | null : Written .null
  | bool (value : Bool) : Written (.bool value)
  | number (i : Int) : Written (.ofInt i)
  | string (b : Bytes) : Written (.string (escape b))
  | array {items : List Json} (values : ∀ j ∈ items, Written j) : Written (.array items)
  | object {members : List (Bytes × Json)} (names : ∀ m ∈ members, ∃ b, m.1 = escape b)
      (values : ∀ m ∈ members, Written m.2) : Written (.object members)

theorem render_array (items : List Json) :
    (Json.array items).render =
      openBracket :: [comma].intercalate (items.map render) ++ [closeBracket] := by
  rw [render]
  simp only [List.map_subtype, List.unattach_attach]

/-- A member of an object as it is written. -/
def renderMember (m : Bytes × Json) : Bytes := quoted m.1 ++ colon :: m.2.render

theorem render_object (members : List (Bytes × Json)) :
    (Json.object members).render =
      openBrace :: [comma].intercalate (members.map renderMember) ++ [closeBrace] := by
  rw [render]
  simp only [List.map_subtype, List.unattach_attach]
  rfl

theorem intercalate_two (a b : Bytes) (l : List Bytes) :
    [comma].intercalate (a :: b :: l) = a ++ comma :: [comma].intercalate (b :: l) := by
  simp [List.intercalate]

theorem derives_element {j : Json} {b : Bytes} (value : Derives (.value j) b) :
    Derives (.element j) b := by
  have spaces : Spaces [] := fun _ member => absurd member List.not_mem_nil
  simpa using Derives.element spaces value spaces

theorem derives_items : ∀ (j : Json) (items : List Json),
    (∀ i ∈ j :: items, Derives (.value i) i.render) →
    Derives (.items (j :: items)) ([comma].intercalate ((j :: items).map render))
  | j, [], values => by
    have item := derives_element (values j (by simp))
    simpa [List.intercalate] using Derives.lastItem item
  | j, i :: items, values => by
    have item := derives_element (values j (by simp))
    rw [List.map_cons, List.map_cons, intercalate_two]
    exact .moreItems item (derives_items i items fun k member => values k (.tail _ member))

theorem derives_member {m : Bytes × Json} (name : Chars m.1)
    (value : Derives (.value m.2) m.2.render) : Derives (.member m.1 m.2) (renderMember m) := by
  have spaces : Spaces [] := fun _ member => absurd member List.not_mem_nil
  simpa [renderMember] using Derives.member spaces name spaces (derives_element value)

theorem derives_members : ∀ (m : Bytes × Json) (members : List (Bytes × Json)),
    (∀ k ∈ m :: members, Chars k.1 ∧ Derives (.value k.2) k.2.render) →
    Derives (.members (m :: members)) ([comma].intercalate ((m :: members).map renderMember))
  | m, [], values => by
    obtain ⟨name, value⟩ := values m (by simp)
    simpa [List.intercalate] using Derives.lastMember (derives_member name value)
  | m, k :: members, values => by
    obtain ⟨name, value⟩ := values m (by simp)
    rw [List.map_cons, List.map_cons, intercalate_two]
    exact .moreMembers (derives_member name value)
      (derives_members k members fun n member => values n (.tail _ member))

theorem Written.derives {j : Json} (h : Written j) : Derives (.value j) j.render := by
  induction h with
  | null => rw [render]; exact .null
  | bool value =>
    cases value
    · rw [render]; exact .false
    · rw [render]; exact .true
  | number i =>
    obtain ⟨literal, shape, number⟩ := number_ofInt i
    rw [shape, render]
    exact .number number
  | string b => rw [render]; exact .string (chars_escape b)
  | @array items _ ih =>
    rw [render_array]
    cases items with
    | nil => exact .noItems fun _ member => absurd member List.not_mem_nil
    | cons j items => exact .array (derives_items j items ih)
  | @object members names _ ih =>
    rw [render_object]
    cases members with
    | nil => exact .noMembers fun _ member => absurd member List.not_mem_nil
    | cons m members =>
      refine .object (derives_members m members fun k member => ⟨?_, ih k member⟩)
      obtain ⟨b, name⟩ := names k member
      exact name ▸ chars_escape b

/-- Reading the text of a written value gives the value. -/
theorem read?_render {j : Json} (h : Written j) : read? j.render = some j :=
  read?_eq_some_iff.mpr (derives_element h.derives)

/-! ## Records -/

theorem named?_record (members : List (String × Json)) :
    named? (members.map fun m => (escape (Bytes.ofString m.1), m.2)) = some members := by
  induction members with
  | nil => rfl
  | cons m members ih =>
    rw [named?] at ih ⊢
    rw [List.map_cons, List.mapM_cons, ih, text?_escape]
    rfl

theorem lookup_zip {names : List String} (distinct : names.Nodup) {values : List Json}
    (same : names.length = values.length) :
    names.map (fun n => lookup n (names.zip values)) = values.map some := by
  induction names generalizing values with
  | nil =>
    cases values with
    | nil => rfl
    | cons v values => cases same
  | cons n names ih =>
    cases values with
    | nil => cases same
    | cons v values =>
      obtain ⟨fresh, distinct⟩ := List.nodup_cons.mp distinct
      have later : names.map (fun m => lookup m ((n :: names).zip (v :: values))) =
          names.map fun m => lookup m (names.zip values) := by
        apply List.map_congr_left
        intro m member
        have other : (n == m) = false := beq_eq_false_iff_ne.mpr fun h => fresh (h ▸ member)
        simp [lookup, other]
      rw [List.map_cons, later, ih distinct (by simpa using same)]
      simp [lookup]

/-- The declared fields of a record are found again when no two of them share a name. -/
theorem fields?_record {names : List String} {values : List Json} (distinct : names.Nodup)
    (same : names.length = values.length) :
    fields? names (.record (names.zip values)) = some ⟨false, values.map some⟩ := by
  have once (m : String) : ((names.zip values).filter fun f => f.1 == m).length ≤ 1 := by
    have fronts : (names.zip values).map Prod.fst = names := List.map_fst_zip (by omega)
    have count := List.nodup_iff_count.mp distinct m
    rwa [← fronts, List.count, List.countP_map, List.countP_eq_length_filter] at count
  rw [record, fields?, named?_record]
  simp only [once, decide_true, List.all_eq_true, implies_true, ↓reduceIte,
    lookup_zip distinct same]

end Outbox.Json
