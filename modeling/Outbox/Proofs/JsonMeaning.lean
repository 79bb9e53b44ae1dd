import Outbox.Proofs.Records
import Outbox.Proofs.Spellings

/-! # What JSON values stand for

Strings stand for texts, numbers for integers, and a text in base64 for bytes. Each reading is
stated here exactly: a string may be written with any escapes, an integer of a range and the base64
of some bytes in one way only. Of an object's members those with a declared name are found wherever
they stand.
-/

namespace Outbox

namespace Text.Base64

theorem letter_of_value? {c : UInt8} {n : Nat} (known : value? c = some n) :
    n < 64 ∧ letter n = c := by
  have all : ∀ k : Fin 256, ∀ n ∈ value? (UInt8.ofNat k.val),
      n < 64 ∧ letter n = UInt8.ofNat k.val := by
    decide +kernel
  have := all ⟨c.toNat, c.toNat_lt⟩ n
  simp only [UInt8.ofNat_toNat] at this
  exact this known

theorem toNat_toUInt8 {n : Nat} (h : n < 256) : n.toUInt8.toNat = n := by
  simpa using h

/-- Only the letters of some bytes are read, with the padding that they need. -/
theorem encode_of_decodeAfter {acc t b : Bytes} (read : decodeAfter acc t = some b) :
    ∃ u, b = acc.reverse ++ u ∧ t = encode u := by
  fun_induction decodeAfter acc t with
  | case1 =>
    cases read
    exact ⟨[], by simp, rfl⟩
  | case2 acc w' x' y' z' rest w x second first a y z fourth third ih =>
    obtain ⟨u, shape, rfl⟩ := ih read
    obtain ⟨_, rfl⟩ := letter_of_value? first
    obtain ⟨_, rfl⟩ := letter_of_value? second
    obtain ⟨_, rfl⟩ := letter_of_value? third
    obtain ⟨_, rfl⟩ := letter_of_value? fourth
    refine ⟨a :: (x % 16 * 16 + y / 4).toUInt8 :: (y % 4 * 64 + z).toUInt8 :: u, ?_, ?_⟩
    · simp [shape]
    · rw [encode_group, toNat_toUInt8 (show w * 4 + x / 16 < 256 by omega),
        toNat_toUInt8 (show x % 16 * 16 + y / 4 < 256 by omega),
        toNat_toUInt8 (show y % 4 * 64 + z < 256 by omega),
        show (w * 4 + x / 16) / 4 = w by omega,
        show (w * 4 + x / 16) % 4 * 16 + (x % 16 * 16 + y / 4) / 16 = x by omega,
        show (x % 16 * 16 + y / 4) % 16 * 4 + (y % 4 * 64 + z) / 64 = y by omega,
        show (y % 4 * 64 + z) % 64 = z by omega]
  | case3 acc w' x' y' z' rest w x second first a y fourth third last =>
    cases read
    obtain ⟨rfl, rfl, spare⟩ := last
    obtain ⟨_, rfl⟩ := letter_of_value? first
    obtain ⟨_, rfl⟩ := letter_of_value? second
    obtain ⟨_, rfl⟩ := letter_of_value? third
    refine ⟨[a, (x % 16 * 16 + y / 4).toUInt8], by simp, ?_⟩
    simp only [encode, encodeAfter, a, toNat_toUInt8 (show w * 4 + x / 16 < 256 by omega),
      toNat_toUInt8 (show x % 16 * 16 + y / 4 < 256 by omega),
      show (w * 4 + x / 16) / 4 = w by omega,
      show (w * 4 + x / 16) % 4 * 16 + (x % 16 * 16 + y / 4) / 16 = x by omega,
      show (x % 16 * 16 + y / 4) % 16 * 4 = y by omega]
    rfl
  | case5 acc w' x' y' z' rest w x second first a third last =>
    cases read
    obtain ⟨rfl, rfl, rfl, spare⟩ := last
    obtain ⟨_, rfl⟩ := letter_of_value? first
    obtain ⟨_, rfl⟩ := letter_of_value? second
    refine ⟨[a], by simp, ?_⟩
    simp only [encode, encodeAfter, a, toNat_toUInt8 (show w * 4 + x / 16 < 256 by omega),
      show (w * 4 + x / 16) / 4 = w by omega, show (w * 4 + x / 16) % 4 * 16 = x by omega]
    rfl
  | case4 | case6 | case7 | case8 => cases read

/-- Bytes are read from the one text that they are encoded as. -/
theorem decode?_eq_some_iff {t b : Bytes} : decode? t = some b ↔ t = encode b := by
  refine ⟨fun read => ?_, fun written => written ▸ decode?_encode b⟩
  obtain ⟨u, rfl, written⟩ := encode_of_decodeAfter read
  exact written

end Text.Base64

namespace Json

/-! ## Strings -/

theorem asString?_eq_some_iff {j : Json} {s : String} :
    asString? j = some s ↔ ∃ raw, j = .string raw ∧ Spells raw s := by
  cases j <;> simp [asString?, text?_eq_some_iff]

theorem asOneOf?_eq_some_iff {α : Type} {all : List α} {name : α → String} {a : α}
    (found : all.find? (fun b => name b == name a) = some a) {j : Json} :
    asOneOf? all name j = some a ↔
      ∃ raw, (j = .string raw ∨ j = .object [(raw, .null)]) ∧ Spells raw (name a) := by
  have known {raw : Bytes} : ((text? raw).bind fun s => all.find? fun b => name b == s) = some a ↔
      Spells raw (name a) := by
    rw [Option.bind_eq_some_iff, ← text?_eq_some_iff]
    constructor
    · rintro ⟨s, text, first⟩
      obtain rfl : name a = s := by simpa using List.find?_some first
      exact text
    · exact fun text => ⟨_, text, found⟩
  unfold asOneOf?
  split
  · next raw => simp [known]
  · next raw => simp [known]
  · next noString noObject =>
    simp only [reduceCtorEq, false_iff, not_exists, not_and]
    rintro raw (rfl | rfl)
    · exact absurd rfl (noString raw)
    · exact absurd rfl (noObject raw)

/-! ## Numbers -/

theorem readDigits_map {ds : Bytes} (digits : ∀ c ∈ ds, isDigit c = true) (acc : Nat) :
    Text.Decimal.readDigits acc (ds.map Char.ofUInt8) =
      some (ds.foldl (fun n d => n * 10 + (d.toNat - 48)) acc) := by
  induction ds generalizing acc with
  | nil => rfl
  | cons d ds ih =>
    obtain ⟨digit, digits⟩ := List.forall_mem_cons.mp digits
    have bounds : 48 ≤ d.toNat ∧ d.toNat ≤ 57 := by
      simpa [isDigit, UInt8.le_iff_toNat_le] using digit
    have value : Text.Decimal.digitVal? (Char.ofUInt8 d) = some (d.toNat - 48) := if_pos bounds
    rw [List.map_cons, Text.Decimal.readDigits, value]
    exact ih digits _

/-- A whole number is written in one way. -/
theorem numeral_of_digits? {ds : Bytes} {n : Nat} (whole : Whole ds) (read : digits? ds = some n) :
    numeral n = ds := by
  obtain ⟨⟨filled, digits⟩, plain⟩ := whole
  rw [digits?, if_pos (List.all_eq_true.mpr digits)] at read
  have written := Text.Decimal.ofNat_of_readDigits (readDigits_map digits 0) (by simpa using filled)
    fun zero => by
      rw [List.head?_map, Option.map_eq_some_iff] at zero
      obtain ⟨d, first, isZero⟩ := zero
      obtain rfl : d = 0x30 := UInt8.toNat_inj.mp (congrArg Char.toNat isZero)
      rw [plain first]
      rfl
  rw [← Option.some.inj read, numeral, written, List.map_map]
  exact List.map_id'' (fun d => UInt8.ofNat_toNat) ds

theorem whole_of_unsigned {ds : Bytes} (unsigned : Unsigned ds)
    (digits : ∀ c ∈ ds, isDigit c = true) : Whole ds := by
  cases unsigned with
  | mk whole fraction exponent =>
    cases fraction with
    | point => exact absurd (digits 0x2E (by simp)) (by decide)
    | empty =>
      cases exponent with
      | empty => simpa using whole
      | @unsigned e _ letter _ =>
        have := digits e (by simp)
        rcases letter with rfl | rfl <;> exact absurd this (by decide)
      | @signed e _ _ letter _ _ => 
        have := digits e (by simp)
        rcases letter with rfl | rfl <;> exact absurd this (by decide)

theorem digits_of_digits? {ds : Bytes} {n : Nat} (read : digits? ds = some n) :
   ∀ c ∈ ds, isDigit c = true := by
  unfold digits? at read
  split at read
  · next all => exact List.all_eq_true.mp all
  · cases read

theorem ofInt_of_asRanged? {lo hi : Int} {literal : Bytes} (number : Number literal)
    {r : Ranged lo hi} (read : asRanged? (.number literal) = some r) :
    .number literal = ofInt r.val := by
  have plain {ds : Bytes} {n : Nat} (unsigned : Unsigned ds) (value : digits? ds = some n) :
      numeral n = ds :=
    numeral_of_digits? (whole_of_unsigned unsigned (digits_of_digits? value)) value
  rw [ofInt_eq]
  cases number with
  | @minus ds unsigned =>
    rw [asRanged?] at read
    split at read
    · cases read
    · cases read
    · next n positive value =>
      have same := Ranged.ofInt?_eq_some_iff.mp read
      simp only [Int.ofNat_eq_natCast] at same
      have negative : r.val < 0 := by
        have := Nat.pos_of_ne_zero positive
        omega
      rw [if_pos negative, show r.val.natAbs = n by omega, plain unsigned value]
  | plus unsigned =>
    obtain ⟨c, t, shape, digit⟩ := unsigned.head
    rw [asRanged?] at read
    · obtain ⟨n, value, fits⟩ := Option.bind_eq_some_iff.mp read
      have same := Ranged.ofInt?_eq_some_iff.mp fits
      simp only [Int.ofNat_eq_natCast] at same
      rw [if_neg (by omega), show r.val.natAbs = n by omega, plain unsigned value]
    · rintro ds rfl
      exact isDigit_ne_minus digit (List.cons.inj shape).1.symm

/-- An integer of a range is read from the one number that is written for it. -/
theorem asRanged?_eq_some_iff {lo hi : Int} {j : Json} {b : Bytes} (text : Derives (.value j) b)
    {r : Ranged lo hi} : asRanged? j = some r ↔ j = ofInt r.val := by
  refine ⟨fun read => ?_, fun written => written ▸ asRanged?_ofInt r⟩
  cases text with
  | number number => exact ofInt_of_asRanged? number read
  | _ => cases read

/-! ## Members -/

/-- The members with the texts that their names stand for. -/
def Titled (members : List (Bytes × Json)) (named : List (String × Json)) : Prop :=
  List.Forall₂ (fun m n => Spells m.1 n.1 ∧ m.2 = n.2) members named

theorem named?_eq_some_iff {members : List (Bytes × Json)} {named : List (String × Json)} :
    named? members = some named ↔ Titled members named := by
  unfold named? Titled
  induction members generalizing named with
  | nil => simp [eq_comm]
  | cons m members ih =>
    rw [List.mapM_cons, List.forall₂_cons_left_iff]
    simp only [Option.bind_eq_bind, Option.bind_eq_some_iff, Option.map_eq_some_iff, ih,
      text?_eq_some_iff, Option.pure_def, Option.some.injEq]
    constructor
    · rintro ⟨n, ⟨name, spells, rfl⟩, named, rest, rfl⟩
      exact ⟨_, named, ⟨spells, rfl⟩, rest, rfl⟩
    · rintro ⟨⟨name, _⟩, named, ⟨spells, rfl⟩, rest, rfl⟩
      exact ⟨_, ⟨name, spells, rfl⟩, named, rest, rfl⟩

theorem Titled.exists_mem {members : List (Bytes × Json)} {named : List (String × Json)}
    (names : Titled members named) {n : String × Json} (member : n ∈ named) :
    ∃ m ∈ members, m.2 = n.2 := by
  induction names with
  | nil => cases member
  | cons first _ ih =>
    rcases List.mem_cons.mp member with rfl | member
    · exact ⟨_, by simp, first.2⟩
    · obtain ⟨m, found, same⟩ := ih member
      exact ⟨m, .tail _ found, same⟩

/-- The members of an object have values that are written by the rules. -/
theorem Titled.values {members : List (Bytes × Json)} {named : List (String × Json)}
    (names : Titled members named) {text : Bytes}
    (object : Derives (.element (.object members)) text) :
    ∀ n ∈ named, ∃ t, Derives (.value n.2) t := by
  intro n member
  obtain ⟨m, found, same⟩ := names.exists_mem member
  cases object with
  | element _ value _ =>
    cases value with
    | noMembers => cases found
    | object inside => exact same ▸ inside.of_members m found

/-- A member whose name occurs once is found, wherever it stands. -/
theorem lookup_iff {n : String} {members : List (String × Json)}
    (once : (members.map Prod.fst).count n ≤ 1) (P : Option Json → Prop) :
    P (lookup n members) ↔
      (∀ j, (n, j) ∈ members → P (some j)) ∧ (n ∉ members.map Prod.fst → P none) := by
  induction members with
  | nil => simp [lookup]
  | cons m members ih =>
    obtain ⟨name, j⟩ := m
    by_cases same : name = n
    · subst same
      have later : name ∉ members.map Prod.fst := by
        rw [List.map_cons, List.count_cons_self] at once
        exact List.count_eq_zero.mp (by omega)
      have first : lookup name ((name, j) :: members) = some j := by simp [lookup]
      rw [first]
      constructor
      · intro found
        refine ⟨fun k member => ?_, fun absent => absurd (by simp) absent⟩
        rcases List.mem_cons.mp member with shape | member
        · cases shape
          exact found
        · exact absurd (List.mem_map_of_mem member) later
      · exact fun all => all.1 j (by simp)
    · have other : lookup n ((name, j) :: members) = lookup n members := by simp [lookup, same]
      rw [List.map_cons, List.count_cons_of_ne same] at once
      rw [other, ih once]
      simp [Ne.symm same]

end Json

end Outbox
