import Mathlib.Data.List.TakeWhile
import Outbox.Proofs.JsonString

/-! # The grammar of JSON

The rules of JSON, stated without the reader: a text belongs to a value, and white space may stand
around every token. The reader accepts what the rules derive and nothing else, and what it returns
is the value that the text belongs to.
-/

namespace Outbox.Json

/-! ## White space -/

def Spaces (b : Bytes) : Prop := ∀ c ∈ b, isSpace c = true

theorem skip_append {s : Bytes} (spaces : Spaces s) (rest : Bytes) :
    skip (s ++ rest) = skip rest :=
  List.dropWhile_append_of_pos spaces

theorem skip_of_head {b : UInt8} (h : isSpace b = false) (t : Bytes) : skip (b :: t) = b :: t := by
  simp [skip, h]

theorem skip_eq_nil_iff {b : Bytes} : skip b = [] ↔ Spaces b := List.dropWhile_eq_nil_iff

theorem exists_spaces (b : Bytes) : ∃ s, Spaces s ∧ b = s ++ skip b :=
  ⟨b.takeWhile isSpace, fun _ member => List.mem_takeWhile_imp member,
    List.takeWhile_append_dropWhile.symm⟩

theorem isSpace_of_skip {b t : Bytes} {c : UInt8} (h : skip b = c :: t) : isSpace c = false := by
  have first := List.head?_dropWhile_not isSpace b
  rwa [show b.dropWhile isSpace = c :: t from h] at first

/-! ## Numbers -/

theorem of_map_scan {α β : Type} {f : α → β} {scan : Option (α × Bytes)} {b : β} {rest : Bytes}
    (scanned : (scan.map fun (a, rest) => (f a, rest)) = some (b, rest)) :
    ∃ a, scan = some (a, rest) ∧ f a = b := by
  obtain ⟨⟨a, rest⟩, found, same⟩ := Option.map_eq_some_iff.mp scanned
  cases same
  exact ⟨a, found, rfl⟩

def Digits (ds : Bytes) : Prop := ds ≠ [] ∧ ∀ c ∈ ds, isDigit c = true

/-- The digits before the point: more than one of them do not begin with a zero. -/
def Whole (ds : Bytes) : Prop := Digits ds ∧ (ds.head? = some 0x30 → ds = [0x30])

inductive Fraction : Bytes → Prop where
  | empty : Fraction []
  | point {ds : Bytes} (digits : Digits ds) : Fraction (0x2E :: ds)

inductive Exponent : Bytes → Prop where
  | empty : Exponent []
  | unsigned {e : UInt8} {ds : Bytes} (letter : e = 0x65 ∨ e = 0x45) (digits : Digits ds) :
      Exponent (e :: ds)
  | signed {e s : UInt8} {ds : Bytes} (letter : e = 0x65 ∨ e = 0x45) (sign : s = 0x2B ∨ s = 0x2D)
      (digits : Digits ds) : Exponent (e :: s :: ds)

inductive Unsigned : Bytes → Prop where
  | mk {w f e : Bytes} (whole : Whole w) (fraction : Fraction f) (exponent : Exponent e) :
      Unsigned (w ++ f ++ e)

inductive Number : Bytes → Prop where
  | plus {n : Bytes} (unsigned : Unsigned n) : Number n
  | minus {n : Bytes} (unsigned : Unsigned n) : Number (0x2D :: n)

/-- The text does not go on with anything that could belong to a number. -/
def Stops (rest : Bytes) : Prop :=
  ∀ b t, rest = b :: t → isDigit b = false ∧ b ≠ 0x2E ∧ b ≠ 0x65 ∧ b ≠ 0x45

theorem stops_nil : Stops [] := fun _ _ empty => nomatch empty

theorem stops_cons {b : UInt8} (h : isDigit b = false ∧ b ≠ 0x2E ∧ b ≠ 0x65 ∧ b ≠ 0x45)
    (t : Bytes) : Stops (b :: t) := by
  intro c t' shape
  rwa [← (List.cons.inj shape).1]

theorem scanDigits_append {ds rest : Bytes} (digits : Digits ds)
    (ends : ∀ c t, rest = c :: t → isDigit c = false) :
    scanDigits (ds ++ rest) = some (ds, rest) := by
  have ends : rest.takeWhile isDigit = [] ∧ rest.dropWhile isDigit = rest := by
    cases rest with
    | nil => exact ⟨rfl, rfl⟩
    | cons c t => simp [ends c t rfl]
  rw [scanDigits, List.takeWhile_append_of_pos digits.2, List.dropWhile_append_of_pos digits.2,
    ends.1, ends.2, List.append_nil]
  split
  · exact absurd rfl digits.1
  · rfl

theorem digits_of_scan {b ds rest : Bytes} (scanned : scanDigits b = some (ds, rest)) :
    Digits ds ∧ b = ds ++ rest := by
  unfold scanDigits at scanned
  split at scanned
  · cases scanned
  · next filled =>
    cases scanned
    exact ⟨⟨filled, fun _ member => List.mem_takeWhile_imp member⟩,
      List.takeWhile_append_dropWhile.symm⟩

theorem whole_of_scan {b w rest : Bytes} (scanned : scanWhole b = some (w, rest)) :
    Whole w ∧ b = w ++ rest := by
  unfold scanWhole at scanned
  split at scanned
  · cases scanned
  · next several =>
    obtain ⟨digits, shape⟩ := digits_of_scan scanned
    refine ⟨⟨digits, fun zero => ?_⟩, shape⟩
    match w, zero with
    | [_], rfl => rfl
    | _ :: c :: t, rfl => exact absurd scanned (several c t rest)

theorem fraction_of_scan {b f rest : Bytes} (scanned : scanFraction b = some (f, rest)) :
    Fraction f ∧ b = f ++ rest := by
  unfold scanFraction at scanned
  split at scanned
  · obtain ⟨ds, more, rfl⟩ := of_map_scan scanned
    obtain ⟨digits, rfl⟩ := digits_of_scan more
    exact ⟨.point digits, rfl⟩
  · cases scanned
    exact ⟨.empty, rfl⟩

theorem exponent_of_scan {b e rest : Bytes} (scanned : scanExponent b = some (e, rest)) :
    Exponent e ∧ b = e ++ rest := by
  unfold scanExponent at scanned
  split at scanned
  · split at scanned
    · next letter =>
      split at scanned
      · split at scanned
        · next e _ s _ sign =>
          obtain ⟨ds, more, rfl⟩ := of_map_scan (f := fun ds => e :: s :: ds) scanned
          obtain ⟨digits, rfl⟩ := digits_of_scan more
          exact ⟨.signed letter sign digits, rfl⟩
        · obtain ⟨ds, more, rfl⟩ := of_map_scan scanned
          obtain ⟨digits, shape⟩ := digits_of_scan more
          exact ⟨.unsigned letter digits, by rw [shape]; rfl⟩
      · cases scanned
    · cases scanned
      exact ⟨.empty, rfl⟩
  · cases scanned
    exact ⟨.empty, rfl⟩

theorem unsigned_of_scan {b n rest : Bytes} (scanned : scanUnsigned b = some (n, rest)) :
    Unsigned n ∧ b = n ++ rest := by
  unfold scanUnsigned at scanned
  split at scanned
  · cases scanned
  next first =>
  split at scanned
  · cases scanned
  next second =>
  split at scanned
  · cases scanned
  next third =>
  cases scanned
  obtain ⟨whole, rfl⟩ := whole_of_scan first
  obtain ⟨fraction, rfl⟩ := fraction_of_scan second
  obtain ⟨exponent, rfl⟩ := exponent_of_scan third
  exact ⟨.mk whole fraction exponent, by simp⟩

theorem number_of_scan {b n rest : Bytes} (scanned : scanNumber b = some (n, rest)) :
    Number n ∧ b = n ++ rest := by
  unfold scanNumber at scanned
  split at scanned
  · obtain ⟨n, more, rfl⟩ := of_map_scan scanned
    obtain ⟨unsigned, rfl⟩ := unsigned_of_scan more
    exact ⟨.minus unsigned, rfl⟩
  · obtain ⟨unsigned, shape⟩ := unsigned_of_scan scanned
    exact ⟨.plus unsigned, shape⟩

variable {rest : Bytes}

theorem Exponent.scan {e : Bytes} (exponent : Exponent e) (stops : Stops rest) :
    scanExponent (e ++ rest) = some (e, rest) := by
  have ends : ∀ c t, rest = c :: t → isDigit c = false := fun c t shape => (stops c t shape).1
  cases exponent with
  | empty =>
    cases rest with
    | nil => rfl
    | cons c t =>
      obtain ⟨_, _, small, capital⟩ := stops c t rfl
      simp [scanExponent, small, capital]
  | @unsigned e ds letter digits =>
    have more := scanDigits_append digits ends
    obtain ⟨filled, all⟩ := digits
    cases ds with
    | nil => exact absurd rfl filled
    | cons d ds =>
      have unsigned : ¬ (d = 0x2B ∨ d = 0x2D) := by
        have digit := all d (by simp)
        rintro (rfl | rfl) <;> exact absurd digit (by decide)
      rw [List.cons_append] at more
      simp [scanExponent, letter, unsigned, more]
  | signed letter sign digits => simp [scanExponent, letter, sign, scanDigits_append digits ends]

/-- Where the digits of a number have ended, no digit follows. -/
theorem Exponent.ends {e : Bytes} (exponent : Exponent e) (stops : Stops rest) :
    ∀ c t, e ++ rest = c :: t → isDigit c = false ∧ c ≠ 0x2E := by
  rintro c t shape
  cases exponent with
  | empty =>
    obtain ⟨digit, point, _⟩ := stops c t shape
    exact ⟨digit, point⟩
  | unsigned letter | signed letter =>
    obtain rfl := (List.cons.inj shape).1
    rcases letter with rfl | rfl <;> decide

theorem Fraction.scan {f : Bytes} (fraction : Fraction f)
    (ends : ∀ c t, rest = c :: t → isDigit c = false ∧ c ≠ 0x2E) :
    scanFraction (f ++ rest) = some (f, rest) := by
  cases fraction with
  | empty =>
    rw [List.nil_append, scanFraction.eq_def]
    split
    · next t => exact absurd rfl (ends _ t rfl).2
    · rfl
  | point digits =>
    have more := scanDigits_append digits fun c t shape => (ends c t shape).1
    simp [scanFraction, more]

theorem Fraction.ends {f : Bytes} (fraction : Fraction f)
    (ends : ∀ c t, rest = c :: t → isDigit c = false ∧ c ≠ 0x2E) :
    ∀ c t, f ++ rest = c :: t → isDigit c = false := by
  rintro c t shape
  cases fraction with
  | empty => exact (ends c t shape).1
  | point =>
    obtain rfl := (List.cons.inj shape).1
    decide

theorem Whole.scan {w : Bytes} (whole : Whole w)
    (ends : ∀ c t, rest = c :: t → isDigit c = false) :
    scanWhole (w ++ rest) = some (w, rest) := by
  rw [scanWhole, scanDigits_append whole.1 ends]
  split
  · next zero =>
    cases zero
    have := whole.2 rfl
    simp at this
  · rfl

theorem Unsigned.scan {n : Bytes} (unsigned : Unsigned n) (stops : Stops rest) :
    scanUnsigned (n ++ rest) = some (n, rest) := by
  cases unsigned with
  | mk whole fraction exponent =>
    have ends := exponent.ends stops
    simp only [scanUnsigned, List.append_assoc, whole.scan (fraction.ends ends),
      fraction.scan ends, exponent.scan stops]

theorem Unsigned.head {n : Bytes} (unsigned : Unsigned n) :
    ∃ c t, n = c :: t ∧ isDigit c = true := by
  cases unsigned with
  | @mk w f e whole =>
    match w, whole with
    | [], whole => exact absurd rfl whole.1.1
    | c :: w, whole => exact ⟨c, w ++ f ++ e, rfl, whole.1.2 c (by simp)⟩

theorem isDigit_ne_minus {b : UInt8} (h : isDigit b = true) : b ≠ 0x2D := by
  rintro rfl
  exact absurd h (by decide)

theorem Number.scan {n : Bytes} (number : Number n) (stops : Stops rest) :
    scanNumber (n ++ rest) = some (n, rest) := by
  cases number with
  | plus unsigned =>
    obtain ⟨c, t, shape, digit⟩ := unsigned.head
    rw [scanNumber, unsigned.scan stops]
    intro t' h
    rw [shape, List.cons_append] at h
    exact isDigit_ne_minus digit (List.cons.inj h).1
  | minus unsigned => simp [scanNumber, unsigned.scan stops]

theorem Number.head {n : Bytes} (number : Number n) :
    ∃ c t, n = c :: t ∧ (c = 0x2D ∨ isDigit c = true) := by
  cases number with
  | plus unsigned =>
    obtain ⟨c, t, shape, digit⟩ := unsigned.head
    exact ⟨c, t, shape, .inr digit⟩
  | minus => exact ⟨_, _, rfl, .inl rfl⟩

/-- A number begins with a byte that begins nothing else. -/
theorem number_byte {b : UInt8} (h : b = 0x2D ∨ isDigit b = true) :
    isSpace b = false ∧ b ≠ quote ∧ b ≠ openBracket ∧ b ≠ openBrace ∧
      b ≠ 0x6E ∧ b ≠ 0x74 ∧ b ≠ 0x66 := by
  have all : ∀ n : Fin 256, UInt8.ofNat n.val = 0x2D ∨ isDigit (UInt8.ofNat n.val) = true →
      isSpace (UInt8.ofNat n.val) = false ∧ UInt8.ofNat n.val ≠ quote ∧
      UInt8.ofNat n.val ≠ openBracket ∧ UInt8.ofNat n.val ≠ openBrace ∧
      UInt8.ofNat n.val ≠ 0x6E ∧ UInt8.ofNat n.val ≠ 0x74 ∧ UInt8.ofNat n.val ≠ 0x66 := by
    decide +kernel
  simpa using all ⟨b.toNat, b.toNat_lt⟩ (by simpa using h)

/-! ## Values -/

/-- What texts belong to. An element is a value between white space. -/
inductive Phrase where
  | value (j : Json)
  | element (j : Json)
  | items (items : List Json)
  | member (name : Bytes) (j : Json)
  | members (members : List (Bytes × Json))

/-- The text belongs to the phrase by the rules of JSON. -/
inductive Derives : Phrase → Bytes → Prop where
  | null : Derives (.value .null) (word "null")
  | true : Derives (.value (.bool true)) (word "true")
  | false : Derives (.value (.bool false)) (word "false")
  | number {n : Bytes} (number : Number n) : Derives (.value (.number n)) n
  | string {raw : Bytes} (chars : Chars raw) : Derives (.value (.string raw)) (quoted raw)
  | noItems {s : Bytes} (spaces : Spaces s) :
      Derives (.value (.array [])) (openBracket :: s ++ [closeBracket])
  | array {items : List Json} {b : Bytes} (inside : Derives (.items items) b) :
      Derives (.value (.array items)) (openBracket :: b ++ [closeBracket])
  | noMembers {s : Bytes} (spaces : Spaces s) :
      Derives (.value (.object [])) (openBrace :: s ++ [closeBrace])
  | object {members : List (Bytes × Json)} {b : Bytes} (inside : Derives (.members members) b) :
      Derives (.value (.object members)) (openBrace :: b ++ [closeBrace])
  | element {j : Json} {s b t : Bytes} (before : Spaces s) (value : Derives (.value j) b)
      (after : Spaces t) : Derives (.element j) (s ++ b ++ t)
  | lastItem {j : Json} {b : Bytes} (item : Derives (.element j) b) : Derives (.items [j]) b
  | moreItems {j : Json} {items : List Json} {b c : Bytes} (item : Derives (.element j) b)
      (more : Derives (.items items) c) : Derives (.items (j :: items)) (b ++ comma :: c)
  | member {k : Bytes} {j : Json} {s t b : Bytes} (before : Spaces s) (name : Chars k)
      (after : Spaces t) (value : Derives (.element j) b) :
      Derives (.member k j) (s ++ quoted k ++ t ++ colon :: b)
  | lastMember {k : Bytes} {j : Json} {b : Bytes} (member : Derives (.member k j) b) :
      Derives (.members [(k, j)]) b
  | moreMembers {k : Bytes} {j : Json} {members : List (Bytes × Json)} {b c : Bytes}
      (member : Derives (.member k j) b) (more : Derives (.members members) c) :
      Derives (.members ((k, j) :: members)) (b ++ comma :: c)

theorem Derives.of_member {k b : Bytes} {j : Json} (derived : Derives (.member k j) b) :
    ∃ t, Derives (.value j) t := by
  cases derived with
  | member _ _ _ value =>
    cases value with
    | element _ value _ => exact ⟨_, value⟩

/-- Each member of an object has a value that is written by the rules. -/
theorem Derives.of_members {members : List (Bytes × Json)} {b : Bytes}
    (derived : Derives (.members members) b) : ∀ m ∈ members, ∃ t, Derives (.value m.2) t := by
  generalize same : Phrase.members members = p at derived
  induction derived generalizing members with
  | lastMember member =>
    cases same
    simpa using member.of_member
  | moreMembers member _ _ ih =>
    cases same
    exact List.forall_mem_cons.mpr ⟨member.of_member, ih rfl⟩
  | _ => cases same

/-! ### Every derived text is read

The fuel of the reader bounds the depth of its calls. A text needs no more of it than it has bytes,
so its length is what the induction carries along.
-/

/-- With enough fuel the reader takes the phrase off the front of a text. -/
def Reads : Phrase → Bytes → Prop
  | .value j, b => ∀ fuel rest, b.length < fuel → Stops rest →
      readValue fuel (b ++ rest) = some (j, rest)
  | .element j, b => ∀ fuel rest, b.length < fuel → Stops rest →
      ∃ rest', readValue fuel (b ++ rest) = some (j, rest') ∧ skip rest' = skip rest
  | .items items, b => ∀ fuel acc rest, b.length + 1 < fuel →
      readItems fuel acc (b ++ closeBracket :: rest) = some (.array (acc.reverse ++ items), rest)
  | .member k j, b => ∀ fuel acc c after, b.length < fuel → isSpace c = false →
      Stops (c :: after) → readMembers (fuel + 1) acc (b ++ c :: after) =
        if c = comma then readMembers fuel ((k, j) :: acc) after
        else if c = closeBrace then some (.object ((k, j) :: acc).reverse, after)
        else none
  | .members members, b => ∀ fuel acc rest, b.length + 1 < fuel →
      readMembers fuel acc (b ++ closeBrace :: rest) =
        some (.object (acc.reverse ++ members), rest)

theorem Spaces.stops {s : Bytes} (spaces : Spaces s) (stops : Stops rest) : Stops (s ++ rest) := by
  cases s with
  | nil => exact stops
  | cons c s =>
    apply stops_cons
    have space := spaces c (by simp)
    simp only [isSpace, Bool.or_eq_true, beq_iff_eq] at space
    rcases space with ((rfl | rfl) | rfl) | rfl <;> decide

theorem readValue_skip (fuel : Nat) {s : Bytes} (spaces : Spaces s) (b : Bytes) :
    readValue fuel (s ++ b) = readValue fuel b := by
  cases fuel with
  | zero => simp only [readValue]
  | succ fuel => rw [readValue, readValue, skip_append spaces]

theorem readItems_skip (fuel : Nat) (acc : List Json) {s : Bytes} (spaces : Spaces s) (b : Bytes) :
    readItems fuel acc (s ++ b) = readItems fuel acc b := by
  cases fuel with
  | zero => simp only [readItems]
  | succ fuel => rw [readItems, readItems, readValue_skip fuel spaces]

theorem readMembers_skip (fuel : Nat) (acc : List (Bytes × Json)) {s : Bytes} (spaces : Spaces s)
    (b : Bytes) : readMembers fuel acc (s ++ b) = readMembers fuel acc b := by
  cases fuel with
  | zero => simp only [readMembers]
  | succ fuel => rw [readMembers, readMembers, skip_append spaces]

/-- An array has no items if it closes at once. -/
theorem readItems_closed (fuel : Nat) (acc : List Json) (t : Bytes) :
    readItems fuel acc (closeBracket :: t) = none := by
  cases fuel with
  | zero => rw [readItems]
  | succ fuel => cases fuel <;> rw [readItems] <;> rfl

theorem readMembers_closed (fuel : Nat) (acc : List (Bytes × Json)) (t : Bytes) :
    readMembers fuel acc (closeBrace :: t) = none := by
  cases fuel with
  | zero => rw [readMembers]
  | succ fuel => rw [readMembers]; rfl

theorem readItems_nil (fuel : Nat) (acc : List Json) : readItems fuel acc [] = none := by
  cases fuel with
  | zero => rw [readItems]
  | succ fuel => cases fuel <;> simp [readItems, readValue, skip]

theorem readMembers_nil (fuel : Nat) (acc : List (Bytes × Json)) :
    readMembers fuel acc [] = none := by
  cases fuel with
  | zero => rw [readMembers]
  | succ fuel => rw [readMembers]; rfl

theorem readValue_bracket (fuel : Nat) (b : Bytes) :
    readValue (fuel + 1) (openBracket :: b) =
      if (skip b).head? = some closeBracket then some (.array [], (skip b).tail)
      else readItems fuel [] b := by
  have distinct : openBracket ≠ quote := by decide
  obtain ⟨s, spaces, shape⟩ := exists_spaces b
  have same : readItems fuel [] b = readItems fuel [] (skip b) := by
    rw [shape, readItems_skip fuel [] spaces, ← shape]
  rw [readValue, skip_of_head (by decide), same]
  cases front : skip b with
  | nil => simp [distinct, front, readItems_nil]
  | cons d t => simp [distinct, front]

theorem readValue_brace (fuel : Nat) (b : Bytes) :
    readValue (fuel + 1) (openBrace :: b) =
      if (skip b).head? = some closeBrace then some (.object [], (skip b).tail)
      else readMembers fuel [] b := by
  have distinct : openBrace ≠ quote ∧ openBrace ≠ openBracket := by decide
  obtain ⟨s, spaces, shape⟩ := exists_spaces b
  have same : readMembers fuel [] b = readMembers fuel [] (skip b) := by
    rw [shape, readMembers_skip fuel [] spaces, ← shape]
  rw [readValue, skip_of_head (by decide), same]
  cases front : skip b with
  | nil => simp [distinct, front, readMembers_nil]
  | cons d t => simp [distinct, front]

theorem reads_number {n : Bytes} (number : Number n) : Reads (.value (.number n)) n := by
  intro fuel rest enough stops
  have scanned := number.scan stops
  obtain ⟨c, t, rfl, first⟩ := number.head
  obtain ⟨fuel, rfl⟩ := Nat.exists_eq_add_one_of_ne_zero (Nat.ne_zero_of_lt enough)
  obtain ⟨space, notQuote, notBracket, notBrace, notN, notT, notF⟩ := number_byte first
  rw [List.cons_append] at scanned ⊢
  rw [readValue, skip_of_head space]
  simp only [notQuote, notBracket, notBrace, notN, notT, notF, ↓reduceIte, scanned,
    Option.map_some]

theorem reads_string {raw : Bytes} (chars : Chars raw) :
    Reads (.value (.string raw)) (quoted raw) := by
  intro fuel rest enough _
  obtain ⟨fuel, rfl⟩ := Nat.exists_eq_add_one_of_ne_zero (Nat.ne_zero_of_lt enough)
  rw [quoted, readValue]
  simp only [List.cons_append, List.append_assoc, List.nil_append,
    skip_of_head (show isSpace quote = false by decide), ↓reduceIte, chars.scan,
    List.reverse_nil, Option.map_some]

theorem reads_noItems {s : Bytes} (spaces : Spaces s) :
    Reads (.value (.array [])) (openBracket :: s ++ [closeBracket]) := by
  intro fuel rest enough _
  obtain ⟨fuel, rfl⟩ := Nat.exists_eq_add_one_of_ne_zero (Nat.ne_zero_of_lt enough)
  simp only [List.cons_append, List.append_assoc, List.nil_append]
  rw [readValue_bracket, skip_append spaces, skip_of_head (by decide)]
  rfl

theorem reads_array {items : List Json} {b : Bytes} (inside : Reads (.items items) b) :
    Reads (.value (.array items)) (openBracket :: b ++ [closeBracket]) := by
  intro fuel rest enough _
  obtain ⟨fuel, rfl⟩ := Nat.exists_eq_add_one_of_ne_zero (Nat.ne_zero_of_lt enough)
  simp only [List.cons_append, List.append_assoc, List.nil_append, List.length_cons,
    List.length_append, List.length_nil] at enough ⊢
  have read := inside fuel [] rest (by omega)
  rw [readValue_bracket, if_neg, read]
  · rfl
  · -- a bracket that closes at once leaves no items to read
    intro closed
    obtain ⟨s, spaces, shape⟩ := exists_spaces (b ++ closeBracket :: rest)
    obtain ⟨t, front⟩ := List.head?_eq_some_iff.mp closed
    rw [shape, readItems_skip fuel [] spaces, front, readItems_closed] at read
    cases read

theorem reads_noMembers {s : Bytes} (spaces : Spaces s) :
    Reads (.value (.object [])) (openBrace :: s ++ [closeBrace]) := by
  intro fuel rest enough _
  obtain ⟨fuel, rfl⟩ := Nat.exists_eq_add_one_of_ne_zero (Nat.ne_zero_of_lt enough)
  simp only [List.cons_append, List.append_assoc, List.nil_append]
  rw [readValue_brace, skip_append spaces, skip_of_head (by decide)]
  rfl

theorem reads_object {members : List (Bytes × Json)} {b : Bytes}
    (inside : Reads (.members members) b) :
    Reads (.value (.object members)) (openBrace :: b ++ [closeBrace]) := by
  intro fuel rest enough _
  obtain ⟨fuel, rfl⟩ := Nat.exists_eq_add_one_of_ne_zero (Nat.ne_zero_of_lt enough)
  simp only [List.cons_append, List.append_assoc, List.nil_append, List.length_cons,
    List.length_append, List.length_nil] at enough ⊢
  have read := inside fuel [] rest (by omega)
  rw [readValue_brace, if_neg, read]
  · rfl
  · intro closed
    obtain ⟨s, spaces, shape⟩ := exists_spaces (b ++ closeBrace :: rest)
    obtain ⟨t, front⟩ := List.head?_eq_some_iff.mp closed
    rw [shape, readMembers_skip fuel [] spaces, front, readMembers_closed] at read
    cases read

theorem reads_element {j : Json} {s b t : Bytes} (before : Spaces s) (value : Reads (.value j) b)
    (after : Spaces t) : Reads (.element j) (s ++ b ++ t) := by
  intro fuel rest enough stops
  simp only [List.length_append] at enough
  refine ⟨t ++ rest, ?_, skip_append after rest⟩
  rw [List.append_assoc, List.append_assoc, readValue_skip fuel before]
  exact value fuel (t ++ rest) (by omega) (after.stops stops)

theorem reads_lastItem {j : Json} {b : Bytes} (item : Reads (.element j) b) :
    Reads (.items [j]) b := by
  intro fuel acc rest enough
  have distinct : closeBracket ≠ comma := by decide
  obtain ⟨fuel, rfl⟩ := Nat.exists_eq_add_one_of_ne_zero (Nat.ne_zero_of_lt enough)
  obtain ⟨rest', read, skipped⟩ :=
    item fuel (closeBracket :: rest) (by omega) (stops_cons (by decide) rest)
  rw [skip_of_head (by decide)] at skipped
  simp [readItems, read, skipped, distinct]

theorem reads_moreItems {j : Json} {items : List Json} {b c : Bytes}
    (item : Reads (.element j) b) (more : Reads (.items items) c) :
    Reads (.items (j :: items)) (b ++ comma :: c) := by
  intro fuel acc rest enough
  simp only [List.length_append, List.length_cons] at enough
  obtain ⟨fuel, rfl⟩ := Nat.exists_eq_add_one_of_ne_zero (Nat.ne_zero_of_lt enough)
  obtain ⟨rest', read, skipped⟩ :=
    item fuel (comma :: (c ++ closeBracket :: rest)) (by omega) (stops_cons (by decide) _)
  rw [skip_of_head (by decide)] at skipped
  rw [List.append_assoc, List.cons_append, readItems, read]
  simp only [skipped, ↓reduceIte, more fuel (j :: acc) rest (by omega), List.reverse_cons,
    List.append_assoc, List.singleton_append]

theorem reads_member {k : Bytes} {j : Json} {s t b : Bytes} (before : Spaces s) (name : Chars k)
    (after : Spaces t) (value : Reads (.element j) b) :
    Reads (.member k j) (s ++ quoted k ++ t ++ colon :: b) := by
  intro fuel acc c rest enough solid stops
  simp only [List.length_append, List.length_cons] at enough
  obtain ⟨rest', read, skipped⟩ := value fuel (c :: rest) (by omega) stops
  rw [skip_of_head solid] at skipped
  rw [List.append_assoc, List.append_assoc, List.append_assoc, readMembers_skip _ _ before]
  simp only [quoted, List.cons_append, List.append_assoc, List.nil_append, readMembers,
    skip_of_head (show isSpace quote = false by decide), ↓reduceIte, name.scan, List.reverse_nil,
    skip_append after, skip_of_head (show isSpace colon = false by decide), read, skipped]

theorem reads_lastMember {k : Bytes} {j : Json} {b : Bytes} (member : Reads (.member k j) b) :
    Reads (.members [(k, j)]) b := by
  intro fuel acc rest enough
  have distinct : closeBrace ≠ comma := by decide
  obtain ⟨fuel, rfl⟩ := Nat.exists_eq_add_one_of_ne_zero (Nat.ne_zero_of_lt enough)
  rw [member fuel acc closeBrace rest (by omega) (by decide) (stops_cons (by decide) rest)]
  simp [distinct]

theorem reads_moreMembers {k : Bytes} {j : Json} {members : List (Bytes × Json)} {b c : Bytes}
    (member : Reads (.member k j) b) (more : Reads (.members members) c) :
    Reads (.members ((k, j) :: members)) (b ++ comma :: c) := by
  intro fuel acc rest enough
  simp only [List.length_append, List.length_cons] at enough
  obtain ⟨fuel, rfl⟩ := Nat.exists_eq_add_one_of_ne_zero (Nat.ne_zero_of_lt enough)
  rw [List.append_assoc, List.cons_append,
    member fuel acc comma _ (by omega) (by decide) (stops_cons (by decide) _), if_pos rfl,
    more fuel ((k, j) :: acc) rest (by omega), List.reverse_cons, List.append_assoc,
    List.singleton_append]

theorem Derives.reads {p : Phrase} {b : Bytes} (derived : Derives p b) : Reads p b := by
  induction derived with
  | null | true | false =>
    intro fuel rest enough _
    obtain ⟨fuel, rfl⟩ := Nat.exists_eq_add_one_of_ne_zero (Nat.ne_zero_of_lt enough)
    rfl
  | number number => exact reads_number number
  | string chars => exact reads_string chars
  | noItems spaces => exact reads_noItems spaces
  | array _ ih => exact reads_array ih
  | noMembers spaces => exact reads_noMembers spaces
  | object _ ih => exact reads_object ih
  | element before _ after ih => exact reads_element before ih after
  | lastItem _ ih => exact reads_lastItem ih
  | moreItems _ _ item more => exact reads_moreItems item more
  | member before name after _ ih => exact reads_member before name after ih
  | lastMember _ ih => exact reads_lastMember ih
  | moreMembers _ _ member more => exact reads_moreMembers member more

/-! ### What is read was derived

The three readers call each other with less fuel, so the induction is on the fuel and about all
three at once.
-/

/-- What the reader takes off the front of a text, with this fuel, is a text of what it returns. -/
structure Sound (fuel : Nat) : Prop where
  value : ∀ {b rest : Bytes} {j : Json}, readValue fuel b = some (j, rest) →
    ∃ s t, Spaces s ∧ Derives (.value j) t ∧ b = s ++ t ++ rest
  items : ∀ {acc : List Json} {b rest : Bytes} {j : Json}, readItems fuel acc b = some (j, rest) →
    ∃ items t, Derives (.items items) t ∧ j = .array (acc.reverse ++ items) ∧
      b = t ++ closeBracket :: rest
  members : ∀ {acc : List (Bytes × Json)} {b rest : Bytes} {j : Json},
    readMembers fuel acc b = some (j, rest) →
    ∃ members t, Derives (.members members) t ∧ j = .object (acc.reverse ++ members) ∧
      b = t ++ closeBrace :: rest

theorem exists_spaces_of_skip {b t : Bytes} (h : skip b = t) : ∃ s, Spaces s ∧ b = s ++ t :=
  h ▸ exists_spaces b

theorem of_afterWord {w b rest : Bytes} {j k : Json}
    (read : ((afterWord w b).map fun rest => (k, rest)) = some (j, rest)) :
    j = k ∧ b = w ++ rest := by
  obtain ⟨t, after, same⟩ := Option.map_eq_some_iff.mp read
  cases same
  unfold afterWord at after
  split at after
  · next starts =>
    cases after
    obtain ⟨t, rfl⟩ := List.isPrefixOf_iff_prefix.mp starts
    simp
  · cases after

theorem exists_spaces_of_head? {b : Bytes} {c : UInt8} (h : (skip b).head? = some c) :
    ∃ s, Spaces s ∧ b = s ++ c :: (skip b).tail := by
  obtain ⟨t, front⟩ := List.head?_eq_some_iff.mp h
  rw [front]
  exact exists_spaces_of_skip front

/-- The first byte of a value tells what kind of value it is. -/
theorem sound_front {fuel : Nat} (ih : Sound fuel) {c : UInt8} {b rest : Bytes} {j : Json}
    (solid : isSpace c = false) (read : readValue (fuel + 1) (c :: b) = some (j, rest)) :
    ∃ t, Derives (.value j) t ∧ c :: b = t ++ rest := by
  by_cases isArray : c = openBracket
  · rw [isArray, readValue_bracket] at read
    split at read
    · next closed =>
      cases read
      obtain ⟨s, spaces, shape⟩ := exists_spaces_of_head? closed
      exact ⟨_, .noItems spaces, by rw [isArray, shape]; simp [← shape]⟩
    · obtain ⟨items, t, inside, rfl, rfl⟩ := ih.items read
      exact ⟨_, .array inside, by simp [isArray]⟩
  by_cases isObject : c = openBrace
  · rw [isObject, readValue_brace] at read
    split at read
    · next closed =>
      cases read
      obtain ⟨s, spaces, shape⟩ := exists_spaces_of_head? closed
      exact ⟨_, .noMembers spaces, by rw [isObject, shape]; simp [← shape]⟩
    · obtain ⟨members, t, inside, rfl, rfl⟩ := ih.members read
      exact ⟨_, .object inside, by simp [isObject]⟩
  rw [readValue, skip_of_head solid] at read
  simp only [isArray, isObject, ↓reduceIte] at read
  split at read
  · next isString =>
    obtain ⟨raw, scanned, rfl⟩ := of_map_scan read
    obtain ⟨t, chars, rfl, rfl⟩ := chars_of_scan scanned
    exact ⟨_, .string chars, by simp [isString, quoted]⟩
  split at read
  · next isNull =>
    obtain ⟨rfl, rfl⟩ := of_afterWord read
    exact ⟨_, .null, by rw [isNull]; rfl⟩
  split at read
  · next isTrue =>
    obtain ⟨rfl, rfl⟩ := of_afterWord read
    exact ⟨_, .true, by rw [isTrue]; rfl⟩
  split at read
  · next isFalse =>
    obtain ⟨rfl, rfl⟩ := of_afterWord read
    exact ⟨_, .false, by rw [isFalse]; rfl⟩
  · obtain ⟨n, scanned, rfl⟩ := of_map_scan read
    obtain ⟨number, shape⟩ := number_of_scan scanned
    exact ⟨n, .number number, shape⟩

theorem sound_value {fuel : Nat} (ih : Sound fuel) {b rest : Bytes} {j : Json}
    (read : readValue (fuel + 1) b = some (j, rest)) :
    ∃ s t, Spaces s ∧ Derives (.value j) t ∧ b = s ++ t ++ rest := by
  obtain ⟨s, spaces, shape⟩ := exists_spaces b
  rw [shape, readValue_skip _ spaces] at read
  cases front : skip b with
  | nil =>
    rw [front, readValue] at read
    cases read
  | cons c t =>
    rw [front] at read shape
    obtain ⟨u, derived, same⟩ := sound_front ih (isSpace_of_skip front) read
    exact ⟨s, u, spaces, derived, by rw [shape, same, List.append_assoc]⟩

theorem sound_items {fuel : Nat} (ih : Sound fuel) {acc : List Json} {b rest : Bytes} {j : Json}
    (read : readItems (fuel + 1) acc b = some (j, rest)) :
    ∃ items t, Derives (.items items) t ∧ j = .array (acc.reverse ++ items) ∧
      b = t ++ closeBracket :: rest := by
  unfold readItems at read
  split at read
  · cases read
  next v after first =>
  obtain ⟨s, t, before, value, rfl⟩ := ih.value first
  split at read
  · cases read
  next c after' skipped =>
  obtain ⟨u, spaces, rfl⟩ := exists_spaces_of_skip skipped
  have item := Derives.element before value spaces
  split at read
  · next isComma =>
    obtain ⟨items, t', more, rfl, rfl⟩ := ih.items read
    exact ⟨_, _, .moreItems item more, by simp, by simp [isComma]⟩
  split at read
  · next isClosed =>
    cases read
    exact ⟨_, _, .lastItem item, by simp, by simp [isClosed]⟩
  · cases read

theorem sound_members {fuel : Nat} (ih : Sound fuel) {acc : List (Bytes × Json)} {b rest : Bytes}
    {j : Json} (read : readMembers (fuel + 1) acc b = some (j, rest)) :
    ∃ members t, Derives (.members members) t ∧ j = .object (acc.reverse ++ members) ∧
      b = t ++ closeBrace :: rest := by
  unfold readMembers at read
  split at read
  · cases read
  next c b₁ skipped =>
  obtain ⟨s, before, rfl⟩ := exists_spaces_of_skip skipped
  split at read
  case isFalse => cases read
  next isQuote =>
  split at read
  · cases read
  next key b₂ scanned =>
  obtain ⟨raw, name, rfl, rfl⟩ := chars_of_scan scanned
  split at read
  · cases read
  next c₁ b₃ skipped₁ =>
  obtain ⟨t, after, rfl⟩ := exists_spaces_of_skip skipped₁
  split at read
  case isFalse => cases read
  next isColon =>
  split at read
  · cases read
  next v b₄ first =>
  obtain ⟨u, text, inner, value, rfl⟩ := ih.value first
  split at read
  · cases read
  next c₂ b₅ skipped₂ =>
  obtain ⟨w, outer, rfl⟩ := exists_spaces_of_skip skipped₂
  have member := Derives.member before name after (.element inner value outer)
  split at read
  · next isComma =>
    obtain ⟨members, t', more, rfl, rfl⟩ := ih.members read
    exact ⟨_, _, .moreMembers member more, by simp,
      by simp [isQuote, isColon, isComma, quoted]⟩
  split at read
  · next isClosed =>
    cases read
    exact ⟨_, _, .lastMember member, by simp, by simp [isQuote, isColon, isClosed, quoted]⟩
  · cases read

theorem sound (fuel : Nat) : Sound fuel := by
  induction fuel with
  | zero =>
    constructor
    · intro b rest j read
      rw [readValue] at read
      cases read
    · intro acc b rest j read
      rw [readItems] at read
      cases read
    · intro acc b rest j read
      rw [readMembers] at read
      cases read
  | succ fuel ih => exact ⟨sound_value ih, sound_items ih, sound_members ih⟩

/-- A text is read as a value exactly if it belongs to it. -/
theorem read?_eq_some_iff {b : Bytes} {j : Json} :
    read? b = some j ↔ Derives (.element j) b := by
  constructor
  · intro read
    unfold read? at read
    split at read
    · cases read
    next v rest value =>
    split at read
    · next empty =>
      cases read
      obtain ⟨s, t, before, derived, rfl⟩ := (sound _).value value
      exact .element before derived (skip_eq_nil_iff.mp (List.isEmpty_iff.mp empty))
    · cases read
  · intro derived
    obtain ⟨rest, read, skipped⟩ := derived.reads (b.length + 1) [] (by omega) stops_nil
    rw [List.append_nil] at read
    have empty : skip rest = [] := skipped
    rw [read?, read]
    simp [empty]

end Outbox.Json
