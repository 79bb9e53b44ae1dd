import Mathlib.Data.Nat.Digits.Defs
import Outbox.Proofs.Spellings

/-! # The grammar of names

A name is read as a key exactly if it spells one: a numeral of the time, the name of the kind and
the id, with separators between them and the suffix behind. The first two separators end the time
and the kind, so a name has its parts in one way only. Several things may be wrong with a name that
spells no key, and the first of them is the one that is told.
-/

namespace Outbox.Text.Decimal

/-- One or more decimal digits. -/
def Digits (ds : List Char) : Prop := ds ≠ [] ∧ ∀ c ∈ ds, c.isDigit = true

/-- The number that digits stand for, each one for ten times as much as the next. -/
def value (ds : List Char) : Nat := Nat.ofDigits 10 (ds.map fun c => c.toNat - '0'.toNat).reverse

/-- A text that stands for an integer: digits, after a sign if there is one. -/
inductive Numeral : List Char → Int → Prop where
  | unsigned {ds : List Char} (digits : Digits ds) : Numeral ds (value ds)
  | plus {ds : List Char} (digits : Digits ds) : Numeral ('+' :: ds) (value ds)
  | minus {ds : List Char} (digits : Digits ds) : Numeral ('-' :: ds) (-value ds)

theorem isDigit_iff {c : Char} : c.isDigit = true ↔ 48 ≤ c.toNat ∧ c.toNat ≤ 57 := by
  rw [Char.isDigit, Bool.and_eq_true, decide_eq_true_eq, decide_eq_true_eq]
  exact Iff.rfl

theorem digitVal?_eq (c : Char) :
    digitVal? c = if c.isDigit then some (c.toNat - '0'.toNat) else none := by
  unfold digitVal?
  simp only [isDigit_iff]
  rfl

theorem value_cons (c : Char) (ds : List Char) :
    value (c :: ds) = (c.toNat - '0'.toNat) * 10 ^ ds.length + value ds := by
  simp [value, Nat.ofDigits_append, Nat.mul_comm, Nat.add_comm]

/-- Digits continue a number by moving it to the left. -/
theorem readDigits_eq_some_iff {acc n : Nat} {ds : List Char} : readDigits acc ds = some n ↔
    (∀ c ∈ ds, c.isDigit = true) ∧ n = acc * 10 ^ ds.length + value ds := by
  induction ds generalizing acc with
  | nil =>
    have same : some acc = some n ↔ n = acc := by rw [Option.some.injEq, eq_comm]
    simp [readDigits, value, same]
  | cons c ds ih =>
    rw [readDigits, digitVal?_eq, List.forall_mem_cons]
    split
    · next d found =>
      split at found
      · next digit =>
        cases found
        rw [ih, value_cons, List.length_cons, pow_succ]
        simp only [digit, true_and]
        refine and_congr_right fun _ => ?_
        constructor <;> intro h <;> rw [h] <;> ring
      · cases found
    · next missing =>
      split at missing
      · cases missing
      · next other => simp [other]

theorem readNat?_eq_some_iff {ds : List Char} {n : Nat} :
    readNat? ds = some n ↔ Digits ds ∧ n = value ds := by
  cases ds with
  | nil => simp [readNat?, Digits]
  | cons d ds => simp [readNat?, readDigits_eq_some_iff, Digits]

theorem Digits.head_ne {c : Char} {ds : List Char} (digits : Digits (c :: ds)) :
    c ≠ '+' ∧ c ≠ '-' := by
  have digit := digits.2 c (by simp)
  constructor <;> rintro rfl <;> exact absurd digit (by decide)

/-- Integers are read from the texts that stand for them, and from no others. -/
theorem readInt?_eq_some_iff {cs : List Char} {i : Int} : readInt? cs = some i ↔ Numeral cs i := by
  constructor
  · intro read
    unfold readInt? at read
    split at read <;> obtain ⟨n, number, rfl⟩ := Option.map_eq_some_iff.mp read <;>
      obtain ⟨digits, rfl⟩ := readNat?_eq_some_iff.mp number
    · exact .plus digits
    · exact .minus digits
    · exact .unsigned digits
  · intro numeral
    cases numeral with
    | unsigned digits =>
      have read := readNat?_eq_some_iff.mpr ⟨digits, rfl⟩
      rw [readInt?, read]
      · rfl
      · rintro ds rfl
        exact digits.head_ne.1 rfl
      · rintro ds rfl
        exact digits.head_ne.2 rfl
    | plus digits | minus digits =>
      rw [readInt?, readNat?_eq_some_iff.mpr ⟨digits, rfl⟩]
      rfl

/-- A number of a range is read from its numerals. In a range without negative numbers a minus sign
is refused, before a zero too. -/
theorem readRanged?_eq_some_iff {lo hi : Int} {cs : List Char} {r : Ranged lo hi} :
    readRanged? cs = some r ↔ Numeral cs r.val ∧ (0 ≤ lo → cs.head? ≠ some '-') := by
  unfold readRanged?
  split
  · next refused => simp [refused]
  · next accepted =>
    rw [Option.bind_eq_some_iff, and_iff_left fun unsigned minus => accepted ⟨minus, unsigned⟩]
    simp only [Ranged.ofInt?_eq_some_iff, readInt?_eq_some_iff]
    constructor
    · rintro ⟨i, numeral, rfl⟩
      exact numeral
    · exact fun numeral => ⟨r.val, numeral, rfl⟩

theorem readRanged?_eq_some_iff_of_signed {lo hi : Int} {cs : List Char} {r : Ranged lo hi}
    (signed : lo < 0) : readRanged? cs = some r ↔ Numeral cs r.val := by
  rw [readRanged?_eq_some_iff, and_iff_left fun unsigned => absurd unsigned (by omega)]

theorem separator_not_mem {cs : List Char} {i : Int} (numeral : Numeral cs i) : '_' ∉ cs :=
  fun member => (mem_plain_of_readInt? (readInt?_eq_some_iff.mpr numeral) member).1 rfl

end Outbox.Text.Decimal

namespace Outbox.Storage

open Text.Decimal (Numeral)

/-- The place of an error among the causes for which a name is refused. -/
def KeyError.rank : KeyError → Nat
  | missingSuffix _ => 0
  | missingField _ field => if field = "kind" then 1 else 2
  | invalidTimestamp _ => 3
  | unknownKind _ => 4
  | invalidId _ => 5

theorem KeyError.rank_le (e : KeyError) : e.rank ≤ 5 := by
  cases e with
  | missingField _ field => by_cases kind : field = "kind" <;> simp [rank, kind]
  | _ => simp [rank]

namespace Key

variable {name : String} {e f : KeyError} {time kind id time' kind' id' stem stem' : List Char}

/-! ## The parts of a name -/

theorem cut_eq_none_iff {cs : List Char} : cut cs = none ↔ '_' ∉ cs := by
  constructor
  · intro whole member
    obtain ⟨a, b, rfl, plain⟩ := List.eq_append_cons_of_mem member
    rw [cut_append fun c inside same => plain (same ▸ inside)] at whole
    cases whole
  · intro plain
    rw [Option.eq_none_iff_forall_ne_some]
    rintro ⟨a, b⟩ found
    exact plain (by simp [(cut_eq_some found).1])

theorem not_suffix_of_stem? {cs : List Char} (missing : stem? cs = none) : ¬keySuffix <:+ cs := by
  rintro ⟨stem, rfl⟩
  rw [stem?_append] at missing
  cases missing

/-- The name has these three parts, of which only the last one may hold separators. -/
structure Parts (name : String) (time kind id : List Char) : Prop where
  text : name.toList = time ++ '_' :: (kind ++ '_' :: id) ++ keySuffix
  time : '_' ∉ time
  kind : '_' ∉ kind

theorem Parts.cut_stem (parts : Parts name time kind id) (text : name.toList = stem ++ keySuffix) :
    cut stem = some (time, kind ++ '_' :: id) ∧ cut (kind ++ '_' :: id) = some (kind, id) := by
  obtain rfl := List.append_cancel_right (text.symm.trans parts.text)
  exact ⟨cut_append (fun c member same => parts.time (same ▸ member)) _,
    cut_append (fun c member same => parts.kind (same ▸ member)) _⟩

theorem Parts.unique (parts : Parts name time kind id) (parts' : Parts name time' kind' id') :
    time = time' ∧ kind = kind' ∧ id = id' := by
  obtain ⟨first, second⟩ := parts.cut_stem parts'.text
  obtain ⟨first', second'⟩ := parts'.cut_stem parts'.text
  rw [first', Option.some.injEq, Prod.mk.injEq] at first
  rw [← first.2, second', Option.some.injEq, Prod.mk.injEq] at second
  exact ⟨first.1.symm, second.1.symm, second.2.symm⟩

theorem Parts.two_le_count (parts : Parts name time kind id)
    (text : name.toList = stem ++ keySuffix) : 2 ≤ stem.count '_' := by
  obtain rfl := List.append_cancel_right (text.symm.trans parts.text)
  simp only [List.count_append, List.count_cons_self]
  omega

/-! ## What is right and wrong with a name -/

/-- The name spells a key: its parts are a numeral of the time, the name of the kind, and the id. -/
structure Spells (name : String) (time : Int) (kind : Kind) (id : String) : Prop where
  text : ∃ digits, Numeral digits time ∧
    name.toList = digits ++ '_' :: (kind.name.toList ++ '_' :: id.toList) ++ keySuffix
  range : -2 ^ 63 ≤ time ∧ time < 2 ^ 63
  filled : id ≠ ""
  plain : ∀ c ∈ id.toList, c ≠ '/' ∧ c ≠ '\\' ∧ c ≠ '\x00'

/-- Something that is wrong with a name, whatever else may be wrong with it. -/
inductive Flaw (name : String) : KeyError → Prop where
  | suffix (other : ¬keySuffix <:+ name.toList) : Flaw name (.missingSuffix name)
  | noKind {stem : List Char} (text : name.toList = stem ++ keySuffix) (whole : '_' ∉ stem) :
      Flaw name (.missingField name "kind")
  | noId {stem : List Char} (text : name.toList = stem ++ keySuffix) (few : stem.count '_' ≤ 1) :
      Flaw name (.missingField name "uuid")
  | time {time kind id : List Char} (parts : Parts name time kind id)
      (other : ∀ t, Numeral time t → ¬(-2 ^ 63 ≤ t ∧ t < 2 ^ 63)) :
      Flaw name (.invalidTimestamp (String.ofList time))
  | kind {time kind id : List Char} (parts : Parts name time kind id)
      (other : ∀ k : Kind, k.name.toList ≠ kind) : Flaw name (.unknownKind (String.ofList kind))
  | id {time kind id : List Char} (parts : Parts name time kind id)
      (other : id = [] ∨ ∃ c ∈ id, c = '/' ∨ c = '\\' ∨ c = '\x00') :
      Flaw name (.invalidId (String.ofList id))

/-- What is wrong with a name that comes before all else that is wrong with it. -/
def FirstFlaw (name : String) (e : KeyError) : Prop :=
  Flaw name e ∧ ∀ f, Flaw name f → e.rank ≤ f.rank

theorem validId_iff {id : String} : validId id = true ↔
    id ≠ "" ∧ ∀ c ∈ id.toList, c ≠ '/' ∧ c ≠ '\\' ∧ c ≠ '\x00' := by
  simp [validId, isForbidden, and_assoc]

theorem millis_range {t : Int} :
    (∃ m : Millis, m.val = t) ↔ -2 ^ 63 ≤ t ∧ t < 2 ^ 63 := by
  constructor
  · rintro ⟨m, rfl⟩
    have := m.lo_le
    have := m.le_hi
    omega
  · rintro ⟨lo, hi⟩
    exact ⟨⟨t, by omega, by omega⟩, rfl⟩

/-- A name is read as the key that it spells. -/
theorem exists_read_iff_spells {t : Int} {k : Kind} {i : String} :
    (∃ key, ofName? name = .ok key ∧ key.timestamp.val = t ∧ key.kind = k ∧ key.id = i) ↔
      Spells name t k i := by
  constructor
  · rintro ⟨key, read, rfl, rfl, rfl⟩
    obtain ⟨digits, number, text⟩ := ofName?_eq_ok_iff.mp read
    obtain ⟨filled, plain⟩ := validId_iff.mp key.valid
    refine ⟨⟨digits, ?_, by simpa using text⟩, millis_range.mp ⟨_, rfl⟩, filled, plain⟩
    exact (Text.Decimal.readRanged?_eq_some_iff_of_signed (by decide)).mp number
  · rintro ⟨⟨digits, numeral, text⟩, range, filled, plain⟩
    obtain ⟨time, rfl⟩ := millis_range.mpr range
    refine ⟨⟨time, k, i, validId_iff.mpr ⟨filled, plain⟩⟩, ?_, rfl, rfl, rfl⟩
    refine ofName?_eq_ok_iff.mpr ⟨digits, ?_, by simpa using text⟩
    exact (Text.Decimal.readRanged?_eq_some_iff_of_signed (by decide)).mpr numeral

theorem Spells.parts {t : Int} {k : Kind} {i : String} (spells : Spells name t k i) :
    ∃ digits, Numeral digits t ∧ Parts name digits k.name.toList i.toList := by
  obtain ⟨digits, numeral, text⟩ := spells.text
  refine ⟨digits, numeral, text, Text.Decimal.separator_not_mem numeral, fun member => ?_⟩
  exact kind_plain k _ member rfl

/-- Nothing is wrong with a name that spells a key. -/
theorem Spells.not_flaw {t : Int} {k : Kind} {i : String} (spells : Spells name t k i) :
    ¬Flaw name e := by
  obtain ⟨digits, numeral, parts⟩ := spells.parts
  intro flaw
  cases flaw with
  | suffix other => exact other ⟨_, parts.text.symm⟩
  | noKind text whole =>
    have := parts.two_le_count text
    rw [List.count_eq_zero_of_not_mem whole] at this
    omega
  | noId text few => exact absurd (parts.two_le_count text) (by omega)
  | time parts' other =>
    obtain ⟨rfl, -, -⟩ := parts.unique parts'
    exact other t numeral spells.range
  | kind parts' other => exact other k (parts.unique parts').2.1
  | id parts' other =>
    obtain ⟨-, -, rfl⟩ := parts.unique parts'
    rcases other with empty | ⟨c, member, forbidden⟩
    · exact spells.filled (by simpa using empty)
    · have := spells.plain c member
      tauto

/-- Of each kind of flaw a name has one at most. -/
theorem Flaw.eq_of_rank (flaw : Flaw name e) (flaw' : Flaw name f) (same : e.rank = f.rank) :
    e = f := by
  cases flaw <;> cases flaw' <;> try first | rfl | cases same
  case time.time parts _ _ _ _ parts' _ => rw [(parts.unique parts').1]
  case kind.kind parts _ _ _ _ parts' _ => rw [(parts.unique parts').2.1]
  case id.id parts _ _ _ _ parts' _ => rw [(parts.unique parts').2.2]

theorem FirstFlaw.unique (first : FirstFlaw name e) (first' : FirstFlaw name f) : e = f :=
  first.1.eq_of_rank first'.1 (Nat.le_antisymm (first.2 f first'.1) (first'.2 e first.1))

/-- A name with all its parts lacks neither the suffix nor a field. -/
theorem Parts.le_rank (parts : Parts name time kind id) (flaw : Flaw name f) : 3 ≤ f.rank := by
  cases flaw with
  | suffix other => exact absurd ⟨_, parts.text.symm⟩ other
  | noKind text whole =>
    have two := parts.two_le_count text
    rw [List.count_eq_zero_of_not_mem whole] at two
    omega
  | noId text few => exact absurd (parts.two_le_count text) (by omega)
  | time | kind | id => simp [KeyError.rank]

/-- Of a name with all its parts, an error comes first if no earlier part is at fault. -/
theorem Parts.firstFlaw (parts : Parts name time kind id) (flaw : Flaw name e)
    (timed : 3 < e.rank → ∃ t, Numeral time t ∧ -2 ^ 63 ≤ t ∧ t < 2 ^ 63)
    (kinded : 4 < e.rank → ∃ k : Kind, k.name.toList = kind) : FirstFlaw name e := by
  refine ⟨flaw, fun f other => Nat.le_of_not_lt fun earlier => ?_⟩
  have three := parts.le_rank other
  cases other with
  | suffix => cases three
  | noKind | noId => simp [KeyError.rank] at three
  | time parts' wrong =>
    obtain ⟨t, numeral, range⟩ := timed earlier
    exact wrong t ((parts.unique parts').1 ▸ numeral) range
  | kind parts' wrong =>
    obtain ⟨k, named⟩ := kinded earlier
    exact wrong k (named.trans (parts.unique parts').2.1)
  | id =>
    exact absurd earlier (Nat.not_lt_of_le e.rank_le)

/-- A name with all its parts is refused for the first of them that is at fault. -/
theorem Parts.firstFlaw_of_error (parts : Parts name time kind id)
    (failed : ofName? name = .error e) : FirstFlaw name e := by
  obtain ⟨first, second⟩ := parts.cut_stem parts.text
  have stemmed : stem? name.toList = some (time ++ '_' :: (kind ++ '_' :: id)) := by
    rw [parts.text, stem?_append]
  simp only [ofName?, stemmed, first, second] at failed
  split at failed
  case h_1 unread =>
    cases failed
    refine parts.firstFlaw (.time parts fun t numeral range => ?_) (by simp [KeyError.rank])
      (by simp [KeyError.rank])
    obtain ⟨m, rfl⟩ := millis_range.mpr range
    have read : Text.Decimal.readRanged? time = some m :=
      (Text.Decimal.readRanged?_eq_some_iff_of_signed (by decide)).mpr numeral
    cases unread.symm.trans read
  case h_2 timestamp read =>
  have timed : ∃ t, Numeral time t ∧ -2 ^ 63 ≤ t ∧ t < 2 ^ 63 :=
    ⟨_, (Text.Decimal.readRanged?_eq_some_iff_of_signed (by decide)).mp read,
      millis_range.mp ⟨_, rfl⟩⟩
  split at failed
  case h_1 unknown =>
    cases failed
    refine parts.firstFlaw (.kind parts fun k named => ?_) (fun _ => timed)
      (by simp [KeyError.rank])
    rw [← named, String.ofList_toList, Kind.ofName?_name] at unknown
    cases unknown
  case h_2 known named =>
    have kinded : ∃ k : Kind, k.name.toList = kind := by
      have same : known.name = String.ofList kind := by
        simpa [Kind.ofName?] using List.find?_some named
      exact ⟨known, by rw [same, String.toList_ofList]⟩
    unfold make at failed
    split at failed
    case isTrue => cases failed
    case isFalse invalid =>
      cases failed
      refine parts.firstFlaw (.id parts ?_) (fun _ => timed) fun _ => kinded
      rw [validId_iff, String.toList_ofList] at invalid
      by_contra fine
      push Not at fine
      exact invalid ⟨fun empty => fine.1 (by simpa using congrArg String.toList empty), fine.2⟩

/-- A name is refused for the first thing that is wrong with it. -/
theorem firstFlaw_of_error (failed : ofName? name = .error e) : FirstFlaw name e := by
  cases stemmed : stem? name.toList with
  | none =>
    simp only [ofName?, stemmed] at failed
    cases failed
    exact ⟨.suffix (not_suffix_of_stem? stemmed), fun f _ => Nat.zero_le _⟩
  | some stem =>
    have text := stem?_eq_some stemmed
    cases first : cut stem with
    | none =>
      simp only [ofName?, stemmed, first] at failed
      cases failed
      refine ⟨.noKind text (cut_eq_none_iff.mp first), fun f flaw => ?_⟩
      cases flaw with
      | suffix other => exact absurd ⟨_, text.symm⟩ other
      | _ => simp [KeyError.rank]
    | some cuts =>
      obtain ⟨time, rest⟩ := cuts
      obtain ⟨rfl, plain⟩ := cut_eq_some first
      have timePlain : '_' ∉ time := fun member => plain _ member rfl
      cases second : cut rest with
      | none =>
        simp only [ofName?, stemmed, first, second] at failed
        cases failed
        have one : (time ++ '_' :: rest).count '_' ≤ 1 := by
          simp [List.count_eq_zero_of_not_mem timePlain,
            List.count_eq_zero_of_not_mem (cut_eq_none_iff.mp second)]
        refine ⟨.noId text one, fun f flaw => ?_⟩
        cases flaw with
        | suffix other => exact absurd ⟨_, text.symm⟩ other
        | noKind text' whole' =>
          obtain rfl := List.append_cancel_right (text.symm.trans text')
          exact absurd whole' (by simp)
        | _ => simp [KeyError.rank]
      | some cuts =>
        obtain ⟨kind, id⟩ := cuts
        obtain ⟨rfl, plain'⟩ := cut_eq_some second
        have parts : Parts name time kind id :=
          ⟨text, timePlain, fun member => plain' _ member rfl⟩
        exact parts.firstFlaw_of_error failed

/-- The grammar of names. A name is read as a key exactly if it spells one, and then it is that key.
Otherwise the error is the first thing that is wrong with the name: that it lacks the suffix, its
kind or its id, or that what stands for the time, the kind or the id is none. -/
theorem read_iff_spells (name : String) :
    (∀ time kind id, Spells name time kind id ↔ ∃ key, ofName? name = .ok key ∧
      key.timestamp.val = time ∧ key.kind = kind ∧ key.id = id) ∧
    ∀ e, FirstFlaw name e ↔ ofName? name = .error e := by
  refine ⟨fun time kind id => exists_read_iff_spells.symm, fun e => ⟨fun first => ?_,
    firstFlaw_of_error⟩⟩
  cases result : ofName? name with
  | ok key =>
    have spells := exists_read_iff_spells.mp ⟨key, result, rfl, rfl, rfl⟩
    exact absurd first.1 spells.not_flaw
  | error f => rw [first.unique (firstFlaw_of_error result)]

/-- An id that begins with a separator and ends like a name. -/
example : (ofName? "+07_log__v1.gz_v1.gz").toOption.map (·.id) = some "_v1.gz" := by decide +kernel

end Key

end Outbox.Storage
