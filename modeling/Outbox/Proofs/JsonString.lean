import Outbox.Json.Record

/-! # Strings in JSON

Between its quotes a string holds characters and escapes. The scanner takes it up to its closing
quote without asking what it stands for: half of a surrogate pair is well formed, but it stands for
no text.
-/

namespace Outbox

theorem Bytes.toString?_eq_some_iff {b : Bytes} {s : String} :
    toString? b = some s ↔ b = ofString s := by
  constructor
  · intro h
    unfold toString? String.fromUTF8? at h
    split at h
    · next valid =>
      cases h
      simp [ofString, String.fromUTF8, String.toUTF8]
    · cases h
  · rintro rfl
    exact toString?_ofString s

namespace Json

/-! ## Form -/

/-- What may stand between the quotes of a string. -/
inductive Chars : Bytes → Prop where
  | nil : Chars []
  | plain {c : UInt8} {raw : Bytes} (notQuote : c ≠ quote) (notBackslash : c ≠ backslash)
      (printed : ¬ c < 0x20) (rest : Chars raw) : Chars (c :: raw)
  | letter {e c : UInt8} {raw : Bytes} (known : unescapeLetter? e = some c) (rest : Chars raw) :
      Chars (backslash :: e :: raw)
  | unit {h₁ h₂ h₃ h₄ : UInt8} {n : Nat} {raw : Bytes} (known : codeUnit? h₁ h₂ h₃ h₄ = some n)
      (rest : Chars raw) : Chars (backslash :: 0x75 :: h₁ :: h₂ :: h₃ :: h₄ :: raw)

theorem unescapeLetter?_u : unescapeLetter? 0x75 = none := by decide

theorem ne_u_of_letter {e c : UInt8} (known : unescapeLetter? e = some c) : e ≠ 0x75 := by
  rintro rfl
  rw [unescapeLetter?_u] at known
  cases known

/-- The scanner takes a string up to its closing quote. -/
theorem Chars.scan {raw : Bytes} (chars : Chars raw) (acc rest : Bytes) :
    scanString acc (raw ++ quote :: rest) = some (acc.reverse ++ raw, rest) := by
  have distinct : backslash ≠ quote := by decide
  induction chars generalizing acc with
  | nil =>
    rw [scanString.eq_def]
    simp
  | plain notQuote notBackslash printed _ ih =>
    rw [List.cons_append, scanString.eq_def]
    simp [notQuote, notBackslash, printed, ih]
  | letter known _ ih =>
    rw [List.cons_append, List.cons_append, scanString.eq_def]
    simp [distinct, ne_u_of_letter known, known, ih]
  | unit known _ ih =>
    simp only [List.cons_append]
    rw [scanString.eq_def]
    simp [distinct, known, ih]

theorem chars_of_scan {acc b raw rest : Bytes} (scanned : scanString acc b = some (raw, rest)) :
    ∃ t, Chars t ∧ raw = acc.reverse ++ t ∧ b = t ++ quote :: rest := by
  fun_induction scanString acc b with
  | case2 =>
    cases scanned
    exact ⟨[], .nil, by simp, rfl⟩
  | case3 acc h₁ h₂ h₃ h₄ b n known _ ih =>
    obtain ⟨t, chars, rfl, rfl⟩ := ih scanned
    exact ⟨_, .unit known chars, by simp, rfl⟩
  | case5 acc e b _ c known _ ih =>
    obtain ⟨t, chars, rfl, rfl⟩ := ih scanned
    exact ⟨_, .letter known chars, by simp, rfl⟩
  | case9 acc c b notQuote notBackslash printed ih =>
    obtain ⟨t, chars, rfl, rfl⟩ := ih scanned
    exact ⟨_, .plain notQuote notBackslash printed chars, by simp, rfl⟩
  | case1 | case4 | case6 | case7 | case8 => cases scanned

/-! ## Meaning -/

/-- The bytes that what stands between quotes is written for. Half of a surrogate pair stands for
nothing. -/
inductive Unescapes : Bytes → Bytes → Prop where
  | nil : Unescapes [] []
  | plain {c : UInt8} {raw b : Bytes} (notBackslash : c ≠ backslash) (rest : Unescapes raw b) :
      Unescapes (c :: raw) (c :: b)
  | letter {e c : UInt8} {raw b : Bytes} (known : unescapeLetter? e = some c)
      (rest : Unescapes raw b) : Unescapes (backslash :: e :: raw) (c :: b)
  | unit {h₁ h₂ h₃ h₄ : UInt8} {n : Nat} {raw b : Bytes} (known : codeUnit? h₁ h₂ h₃ h₄ = some n)
      (scalar : ¬(0xD800 ≤ n ∧ n ≤ 0xDFFF)) (rest : Unescapes raw b) :
      Unescapes (backslash :: 0x75 :: h₁ :: h₂ :: h₃ :: h₄ :: raw)
        (String.utf8EncodeChar (Char.ofNat n) ++ b)
  | pair {h₁ h₂ h₃ h₄ l₁ l₂ l₃ l₄ : UInt8} {n m : Nat} {raw b : Bytes}
      (first : codeUnit? h₁ h₂ h₃ h₄ = some n) (high : 0xD800 ≤ n ∧ n ≤ 0xDBFF)
      (second : codeUnit? l₁ l₂ l₃ l₄ = some m) (low : 0xDC00 ≤ m ∧ m ≤ 0xDFFF)
      (rest : Unescapes raw b) :
      Unescapes (backslash :: 0x75 :: h₁ :: h₂ :: h₃ :: h₄ ::
          backslash :: 0x75 :: l₁ :: l₂ :: l₃ :: l₄ :: raw)
        (String.utf8EncodeChar (Char.ofNat (0x10000 + (n - 0xD800) * 0x400 + (m - 0xDC00))) ++ b)

theorem Unescapes.after {raw b : Bytes} (unescapes : Unescapes raw b) (acc : Bytes) :
    unescapeAfter acc raw = some (acc.reverse ++ b) := by
  induction unescapes generalizing acc with
  | nil => simp [unescapeAfter]
  | plain notBackslash _ ih =>
    rw [unescapeAfter.eq_def]
    simp [notBackslash, ih]
  | letter known _ ih =>
    rw [unescapeAfter.eq_def]
    simp [ne_u_of_letter known, known, ih]
  | unit known scalar _ ih =>
    rw [unescapeAfter.eq_def]
    simp only [↓reduceIte, known]
    rw [if_neg (by omega), if_neg (by omega), ih]
    simp
  | pair first high second low _ ih =>
    rw [unescapeAfter.eq_def]
    simp only [↓reduceIte, first, second, true_and]
    rw [if_neg (by omega), if_pos high, if_pos low, ih]
    simp

theorem unescapes_of_after {acc raw b : Bytes} (read : unescapeAfter acc raw = some b) :
    ∃ t, Unescapes raw t ∧ b = acc.reverse ++ t := by
  fun_induction unescapeAfter acc raw with
  | case1 =>
    cases read
    exact ⟨[], .nil, by simp⟩
  | case5 acc h₁ h₂ h₃ h₄ n first low high s u l₁ l₂ l₃ l₄ raw m second pair c ih =>
    obtain ⟨t, rest, shape⟩ := ih read
    obtain ⟨rfl, rfl, low⟩ := pair
    exact ⟨_, .pair first high second low rest, by simp [shape, c]⟩
  | case8 acc h₁ h₂ h₃ h₄ raw n known low high ih =>
    obtain ⟨t, rest, rfl⟩ := ih read
    exact ⟨_, .unit known (by omega) rest, by simp⟩
  | case9 acc e raw _ c known ih =>
    obtain ⟨t, rest, rfl⟩ := ih read
    exact ⟨_, .letter known rest, by simp⟩
  | case12 acc c raw notBackslash ih =>
    obtain ⟨t, rest, rfl⟩ := ih read
    exact ⟨_, .plain notBackslash rest, by simp⟩
  | case2 | case3 | case4 | case6 | case7 | case10 | case11 => cases read

/-- What stands between quotes is written for the text. -/
def Spells (raw : Bytes) (s : String) : Prop := Unescapes raw (Bytes.ofString s)

theorem text?_eq_some_iff {raw : Bytes} {s : String} : text? raw = some s ↔ Spells raw s := by
  rw [text?, Option.bind_eq_some_iff]
  constructor
  · rintro ⟨b, read, text⟩
    obtain ⟨t, unescapes, shape⟩ := unescapes_of_after read
    rw [Bytes.toString?_eq_some_iff] at text
    rwa [Spells, ← text, shape]
  · intro spells
    exact ⟨_, spells.after [], Bytes.toString?_ofString s⟩

end Json

end Outbox
