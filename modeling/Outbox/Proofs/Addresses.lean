import Outbox.Proofs.Blanks
import Outbox.Proofs.Segments

/-! # Texts of addresses

An address of the web is a scheme, an authority and a path, one after the other, so what is put at
the end of its text reaches the last of them that is there. Blanks in front of a slash become a part
of a path, and an authority that they stand behind is refused.
-/

namespace Outbox

namespace Url

/-! ## Hosts and ports -/

variable {scheme : String} {a b cs : List Char} {c : Char}

theorem isFile_of_isWeb (web : isWeb scheme = true) : isFile scheme = false := by
  rw [isFile, beq_eq_false_iff_ne]
  rintro rfl
  revert web
  decide

theorem isSlash_of_isWeb (web : isWeb scheme = true) (c : Char) :
    isSlash scheme c = (c == '/' || c == '\\') := by
  simp [isSlash, web]

/-- The authority ends here. -/
def isEnd (scheme : String) (c : Char) : Bool := isSlash scheme c || isPathEnd c

theorem isEnd_eq_false_iff :
    isEnd scheme c = false ↔ isSlash scheme c = false ∧ isPathEnd c = false := Bool.or_eq_false_iff

theorem ne_backslash (web : isWeb scheme = true) (other : isEnd scheme c = false) : c ≠ '\\' := by
  rintro rfl
  have slash := (isEnd_eq_false_iff.mp other).1
  rw [isSlash_of_isWeb web] at slash
  cases slash

theorem isEnd_slash (scheme : String) : isEnd scheme '/' = true := by
  simp [isEnd, isSlash]

theorem isSlash_slash (scheme : String) : isSlash scheme '/' = true := by
  simp [isSlash]

theorem splitHost_append (inBrackets : Bool) (cs : List Char) :
    (splitHost inBrackets cs).1 ++ (splitHost inBrackets cs).2 = cs := by
  induction cs generalizing inBrackets with
  | nil => rfl
  | cons c cs ih =>
    rw [splitHost]
    split
    · rfl
    · exact congrArg (c :: ·) (ih _)

/-- A port begins with a colon. -/
theorem head?_splitHost (inBrackets : Bool) (cs : List Char) :
    ∀ d ∈ (splitHost inBrackets cs).2.head?, d = ':' := by
  induction cs generalizing inBrackets with
  | nil => simp [splitHost]
  | cons c cs ih =>
    rw [splitHost]
    split
    case isTrue colon =>
      intro d found
      rw [← Option.some_inj.mp found]
      exact colon.1
    case isFalse => exact ih _

theorem splitUser_suffix (cs : List Char) : (splitUser cs).2 <:+ cs := by
  unfold splitUser
  dsimp only
  split
  · exact List.suffix_refl cs
  · rw [← List.reverse_prefix, List.reverse_reverse]
    exact List.takeWhile_prefix _

/-- What stands at the end of an authority stands at the end of its host and port. -/
theorem splitUser_concat (other : c ≠ '@') (a : List Char) :
    ∃ place, (splitUser (a ++ [c])).2 = place ++ [c] := by
  unfold splitUser
  dsimp only
  split
  · exact ⟨a, rfl⟩
  · refine ⟨(a.reverse.takeWhile (· != '@')).reverse, ?_⟩
    rw [List.reverse_append, List.reverse_singleton, List.singleton_append,
      List.takeWhile_cons_of_pos (by simpa using other), List.reverse_cons]

theorem readDigits_concat (none_ : Text.Hex.val? c = none) (base acc : Nat) (ds : List Char) :
    readDigits base acc (ds ++ [c]) = none := by
  induction ds generalizing acc with
  | nil => simp [readDigits, none_]
  | cons d ds ih =>
    rw [List.cons_append, readDigits]
    split
    · split
      · exact ih _
      · rfl
    · rfl

/-- A byte that is no digit at the end of an escaped text stays there. -/
theorem unescape_concat {x : UInt8} (none_ : Text.Hex.val? (Char.ofUInt8 x) = none) (bs : Bytes) :
    ∃ ys, unescape (bs ++ [x]) = ys ++ [x] := by
  -- one step takes one byte or three, and of three the last one is a digit
  have step (b : UInt8) (rest : Bytes) :
      ∃ y rest', rest'.length ≤ rest.length ∧
        unescape (b :: rest ++ [x]) = y :: unescape (rest' ++ [x]) := by
    rw [List.cons_append, unescape.eq_def]
    split
    case h_1 shape => cases shape
    case h_2 c d tail shape =>
      rw [List.cons.injEq] at shape
      split
      case h_1 high low digit =>
        rcases List.eq_nil_or_concat tail with rfl | ⟨tail, y, rfl⟩
        · have last : rest ++ [x] = [c] ++ [d] := shape.2
          rw [(List.append_inj' last rfl).2 |> List.singleton_injective] at none_
          rw [none_] at digit
          cases digit
        · have last : rest ++ [x] = (c :: d :: tail) ++ [y] := by simpa using shape.2
          obtain ⟨front, same⟩ := List.append_inj' last rfl
          cases same
          rw [List.concat_eq_append]
          exact ⟨_, tail, by simp [front]; omega, rfl⟩
      case h_2 => exact ⟨_, rest, Nat.le_refl _, by rw [shape.2]⟩
    case h_3 b' tail other shape =>
      rw [List.cons.injEq] at shape
      exact ⟨_, rest, Nat.le_refl _, by rw [← shape.1, shape.2]⟩
  induction h : bs.length using Nat.strong_induction_on generalizing bs with
  | _ n ih =>
    cases bs with
    | nil => exact ⟨[], by simp [unescape]⟩
    | cons b rest =>
      obtain ⟨y, rest', shorter, whole⟩ := step b rest
      rw [List.length_cons] at h
      obtain ⟨ys, ends⟩ := ih rest'.length (by omega) rest' rfl
      exact ⟨y :: ys, by rw [whole, ends]; rfl⟩

/-- A byte of ASCII in a text stands for itself. -/
theorem mem_of_mem_ofString {x : UInt8} {s : String} (ascii : x < 0x80)
    (member : x ∈ Bytes.ofString s) : Char.ofUInt8 x ∈ s.toList := by
  have small : x.toNat < 128 := ascii
  rw [← String.ofList_toList (s := s), Bytes.ofString_ofList, List.mem_flatMap] at member
  obtain ⟨c, listed, encoded⟩ := member
  have self : Char.ofUInt8 x = c := by
    have value : x.toNat = c.toNat := by
      unfold String.utf8EncodeChar at encoded
      dsimp only at encoded
      split at encoded
      case isTrue low =>
        rw [List.mem_singleton.mp encoded]
        exact Nat.mod_eq_of_lt (Nat.lt_of_le_of_lt low (by decide))
      case isFalse high =>
        -- every byte of a longer character is beyond ASCII
        exfalso
        split at encoded
        · simp only [List.mem_cons, List.not_mem_nil, or_false] at encoded
          rcases encoded with rfl | rfl <;> simp at small <;> omega
        · split at encoded
          · simp only [List.mem_cons, List.not_mem_nil, or_false] at encoded
            rcases encoded with rfl | rfl | rfl <;> simp at small <;> omega
          · simp only [List.mem_cons, List.not_mem_nil, or_false] at encoded
            rcases encoded with rfl | rfl | rfl | rfl <;> simp at small <;> omega
    exact Char.toNat_inj.mp (by rw [← value]; rfl)
  rwa [self]

namespace Domain

theorem label?_of_forbidden {label : List Char} (member : c ∈ label) (bad : isForbidden c = true) :
    label? label = none := by
  have broken : isLabel label = false := by
    rw [isLabel, Bool.and_eq_false_iff, List.all_eq_false]
    exact .inl ⟨c, member, by simp [bad]⟩
  simp [label?, broken]

theorem mapM_eq_none {α β : Type} {f : α → Option β} {l : List α} {a : α} (member : a ∈ l)
    (none_ : f a = none) : l.mapM f = none := by
  induction l with
  | nil => cases member
  | cons b l ih =>
    rcases List.mem_cons.mp member with rfl | later
    · simp [none_]
    · simp [ih later]

theorem ofChars?_of_blank {name : List Char} (member : c ∈ name) (blank : c.toNat ≤ 0x20) :
    ofChars? name = none := by
  have folds : ∀ n : Fin 33, foldChar (Char.ofNat n.val) = [Char.ofNat n.val] ∧
      isForbidden (Char.ofNat n.val) = true ∧ (Char.ofNat n.val == '.') = false := by decide
  obtain ⟨same, bad, other⟩ := folds ⟨c.toNat, by omega⟩
  rw [Char.ofNat_toNat] at same bad other
  have folded : c ∈ name.flatMap foldChar :=
    List.mem_flatMap.mpr ⟨c, member, same ▸ List.mem_cons_self⟩
  obtain ⟨label, listed, inside⟩ := mem_fields (p := (· == '.')) other folded
  rw [ofChars?, mapM_eq_none listed (label?_of_forbidden inside bad)]
  rfl

end Domain

/-- A name that ends with a blank is refused. -/
theorem Domain.ofEscaped?_concat (blank : c.toNat ≤ 0x20) (name : List Char) :
    Domain.ofEscaped? (name ++ [c]) = none := by
  have bytes : ∀ n : Fin 33, String.utf8EncodeChar (Char.ofNat n.val) = [n.val.toUInt8] ∧
      Text.Hex.val? (Char.ofUInt8 n.val.toUInt8) = none ∧ n.val.toUInt8 < 0x80 ∧
      Char.ofUInt8 n.val.toUInt8 = Char.ofNat n.val := by decide
  obtain ⟨encoded, none_, ascii, same⟩ := bytes ⟨c.toNat, by omega⟩
  rw [Char.ofNat_toNat] at encoded same
  obtain ⟨ys, ends⟩ := unescape_concat none_ (name.flatMap String.utf8EncodeChar)
  rw [Domain.ofEscaped?, Bytes.ofString_ofList, List.flatMap_append, List.flatMap_singleton,
    encoded, ends, Option.bind_eq_none_iff]
  intro s text
  rw [Bytes.toString?_eq_some_iff] at text
  have inside := mem_of_mem_ofString ascii (text ▸ List.mem_append_right ys List.mem_cons_self)
  exact Domain.ofChars?_of_blank (same ▸ inside) blank

theorem Host.ofWeb_concat (blank : c.toNat ≤ 0x20) (name : List Char) (host : Host) :
    Host.ofWeb (name ++ [c]) ≠ .ok host := by
  have plain : c ≠ '[' ∧ c ≠ ']' := by
    constructor <;> rintro rfl <;> revert blank <;> decide
  unfold Host.ofWeb
  split
  case h_1 rest shape =>
    cases name with
    | nil =>
      rw [List.nil_append, List.cons.injEq] at shape
      exact absurd shape.1 plain.1
    | cons d name =>
      rw [List.cons_append, List.cons.injEq] at shape
      rw [← shape.2, Host.ofBrackets, List.getLast?_concat, if_neg (by simp [plain.2])]
      simp
  case h_2 =>
    rw [Domain.ofEscaped?_concat blank]
    simp

/-- The address of an authority and a path, for a scheme of the web. -/
theorem ofAuthority_web (web : isWeb scheme = true) (free : ∀ d ∈ a, isEnd scheme d = false)
    (ends : ∀ d ∈ b.head?, isEnd scheme d = true) :
    ofAuthority scheme (a ++ b) =
      if (splitHost false (splitUser a).2).1 = [] then .error .emptyHost
      else do
        let host ← Host.ofWeb (splitHost false (splitUser a).2).1
        let port ← portOf scheme (splitHost false (splitUser a).2).2
        return ⟨scheme, (credentials ((splitUser a).1.getD [])).1,
          (credentials ((splitUser a).1.getD [])).2, some host, port,
          .segments (pathOf scheme b)⟩ := by
  have front : (a ++ b).takeWhile (fun d => !isEnd scheme d) = a := by
    rw [List.takeWhile_append_of_pos (by simpa using free)]
    cases b with
    | nil => simp
    | cons d b => rw [List.takeWhile_cons_of_neg (by simp [ends d rfl]), List.append_nil]
  have back : (a ++ b).dropWhile (fun d => !isEnd scheme d) = b := by
    rw [List.dropWhile_append_of_pos (by simpa using free)]
    exact Text.dropWhile_eq_self fun d first => by simp [ends d first]
  have whole : (splitHost false (splitUser a).2).2.dropWhile (fun d => d != '\\') = [] := by
    rw [List.dropWhile_eq_nil_iff]
    intro d member
    have inside : d ∈ a := by
      apply (splitUser_suffix a).subset
      rw [← splitHost_append false (splitUser a).2]
      exact List.mem_append_right _ member
    simpa using ne_backslash web (free d inside)
  unfold ofAuthority
  simp only [isEnd] at front back
  simp only [front, back, whole, web, List.nil_append, true_or, and_true, if_true, Bool.not_true,
    Bool.false_eq_true, false_and, if_false]

theorem ofAuthority_append (web : isWeb scheme = true) (free : ∀ d ∈ a, isEnd scheme d = false)
    (ends : ∀ d ∈ b.head?, isEnd scheme d = true) :
    ofAuthority scheme (a ++ b) =
      (ofAuthority scheme a).map fun u => { u with path := .segments (pathOf scheme b) } := by
  have alone := ofAuthority_web (b := []) web free (by simp)
  rw [List.append_nil] at alone
  rw [ofAuthority_web web free ends, alone]
  split
  · rfl
  · cases Host.ofWeb (splitHost false (splitUser a).2).1 with
    | error => rfl
    | ok host =>
      cases portOf scheme (splitHost false (splitUser a).2).2 with
      | error => rfl
      | ok port => rfl

/-- The authority is refused if it ends with a blank. -/
theorem ofAuthority_concat (web : isWeb scheme = true) (blank : c.toNat ≤ 0x20)
    (free : ∀ d ∈ a ++ [c], isEnd scheme d = false) (u : Url) :
    ofAuthority scheme (a ++ [c]) ≠ .ok u := by
  have plain : c ≠ '@' ∧ c ≠ ':' ∧ c ≠ '\\' ∧ Text.Hex.val? c = none := by
    have : ∀ n : Fin 33, Char.ofNat n.val ≠ '@' ∧ Char.ofNat n.val ≠ ':' ∧
      Char.ofNat n.val ≠ '\\' ∧ Text.Hex.val? (Char.ofNat n.val) = none := by decide
    simpa [Char.ofNat_toNat] using this ⟨c.toNat, by omega⟩
  obtain ⟨place, shape⟩ := splitUser_concat plain.1 a
  have alone := ofAuthority_web (b := []) web free (by simp)
  rw [List.append_nil, shape] at alone
  rw [alone]
  have parts := splitHost_append false (place ++ [c])
  have colon := head?_splitHost false (place ++ [c])
  have straight : ∀ d ∈ (splitHost false (place ++ [c])).2, (d != '\\') = true := by
    intro d member
    have inside : d ∈ a ++ [c] := by
      apply (splitUser_suffix (a ++ [c])).subset
      rw [shape, ← parts]
      exact List.mem_append_right _ member
    simpa using ne_backslash web (free d inside)
  generalize (splitHost false (place ++ [c])).1 = host at parts ⊢
  generalize (splitHost false (place ++ [c])).2 = port at parts colon straight ⊢
  split
  · simp
  · rcases List.eq_nil_or_concat port with rfl | ⟨front, d, rfl⟩
    · rw [List.append_nil] at parts
      rw [parts]
      cases named : Host.ofWeb (place ++ [c]) with
      | error => exact fun same => nomatch (same : Except.error _ = Except.ok u)
      | ok host => exact absurd named (Host.ofWeb_concat blank place host)
    · rw [List.concat_eq_append] at parts colon straight ⊢
      rw [← List.append_assoc] at parts
      cases (List.append_inj' parts rfl).2
      have refused : portOf scheme (front ++ [c]) = .error .invalidPort := by
        cases front with
        | nil => exact absurd (colon c rfl) plain.2.1
        | cons e ds =>
          cases colon e rfl
          have all : (ds ++ [c]).takeWhile (fun d => d != '\\') = ds ++ [c] :=
            List.takeWhile_eq_self_iff.mpr fun d member =>
              straight d (List.mem_cons_of_mem _ member)
          rw [List.cons_append, portOf]
          simp only [all, List.append_eq_nil_iff, List.cons_ne_nil, and_false, if_false,
            readDigits_concat plain.2.2.2]
      rw [refused]
      cases Host.ofWeb host <;> exact fun same => nomatch (same : Except.error _ = Except.ok u)

/-! ## Texts and what follows them -/

/-- The character is not left out of an address. -/
def isKept (c : Char) : Bool := !(c == '\t' || c == '\n' || c == '\r')

def isLow (c : Char) : Bool := c.toNat ≤ 0x20

theorem isKept_of_not_isLow (high : isLow c = false) : isKept c = true := by
  by_contra lost
  have left_out : c = '\t' ∨ c = '\n' ∨ c = '\r' := by
    simp only [isKept, Bool.not_eq_true', Bool.not_eq_false, Bool.or_eq_true, beq_iff_eq,
      or_assoc] at lost
    exact lost
  rcases left_out with rfl | rfl | rfl <;> revert high <;> decide

theorem tidy_eq (text : String) : tidy text = (Text.strip isLow text.toList).filter isKept := rfl

/-- What becomes of a text when a slash is put behind it: blanks at its end stay, except for line
breaks and tabs. -/
theorem tidy_slash (text : String) :
    tidy text = [] ∧ tidy (text ++ "/") = ['/'] ∨
      ∃ t, (∀ c ∈ t, c.toNat ≤ 0x20) ∧ tidy (text ++ "/") = tidy text ++ t ++ ['/'] ∧
        (text.toList.filter isKept).getLast? = (tidy text ++ t).getLast? ∧
        ∀ c ∈ (tidy text).getLast?, ¬ c.toNat ≤ 0x20 := by
  have tight := Text.tight_strip isLow text.toList
  obtain ⟨l, r, front, back, whole⟩ := Text.padded_strip isLow text.toList
  rw [tidy_eq, tidy_eq]
  generalize Text.strip isLow text.toList = core at tight whole
  have slash : isLow '/' = false ∧ isKept '/' = true := by decide
  rw [String.toList_append, whole, show "/".toList = ['/'] from rfl]
  by_cases nothing : core = []
  · subst nothing
    left
    have padded : Text.Padded isLow ['/'] (l ++ [] ++ r ++ ['/']) :=
      ⟨l ++ r, [], by grind, by simp, by simp⟩
    rw [Text.strip_of_padded ⟨by simp [slash.1], by simp [slash.1]⟩ padded]
    exact ⟨rfl, by simp [slash.2]⟩
  · right
    obtain ⟨init, d, rfl⟩ := (List.eq_nil_or_concat core).resolve_left nothing
    rw [List.concat_eq_append] at tight nothing ⊢
    have high : isLow d = false := tight.last d (by simp)
    have kept := isKept_of_not_isLow high
    have core_ : (init ++ [d]).filter isKept = init.filter isKept ++ [d] := by
      rw [List.filter_append, List.filter_cons_of_pos kept, List.filter_nil]
    have padded : Text.Padded isLow (init ++ [d] ++ r ++ ['/'])
        (l ++ (init ++ [d]) ++ r ++ ['/']) := ⟨l, [], front, by simp, by simp⟩
    have tight' : Text.Tight isLow (init ++ [d] ++ r ++ ['/']) := by
      refine ⟨fun c first => tight.head c ?_, fun c last => ?_⟩
      · rwa [List.append_assoc, List.head?_append_of_ne_nil _ nothing] at first
      · rw [List.getLast?_concat, Option.mem_some_iff] at last
        exact last ▸ slash.1
    rw [Text.strip_of_padded tight' padded]
    refine ⟨r.filter isKept, fun c member => ?_, ?_, ?_, ?_⟩
    · simpa [isLow] using back c (List.mem_of_mem_filter member)
    · rw [List.filter_append, List.filter_append (init ++ [d]), List.filter_cons_of_pos slash.2]
      rfl
    · rw [List.filter_append, List.filter_append l, core_, List.append_assoc,
        List.getLast?_append_of_ne_nil _ (by simp)]
    · intro c last
      rw [core_, List.getLast?_concat, Option.mem_some_iff] at last
      rw [← last]
      simpa [isLow] using high

theorem scheme?_append {cs more rest : List Char} (free : ':' ∉ more)
    (read : scheme? (cs ++ more) = some (scheme, rest)) :
    ∃ rest', scheme? cs = some (scheme, rest') ∧ rest = rest' ++ more := by
  unfold scheme? at read ⊢
  dsimp only at read ⊢
  generalize (fun c : Char => c.isAlphanum || c == '+' || c == '-' || c == '.') = isLetter at read ⊢
  cases stop : cs.dropWhile isLetter with
  | nil =>
    -- the colon would have to be in what follows
    rw [List.dropWhile_append, stop] at read
    split at read
    case h_1 c name rest' _ shape =>
      have inside : ':' ∈ more.dropWhile isLetter := by
        rw [List.isEmpty_nil, if_pos rfl] at shape
        rw [shape]
        exact List.mem_cons_self
      exact absurd ((List.dropWhile_suffix isLetter).subset inside) free
    case h_2 => cases read
  | cons d ds =>
    have short : (cs.takeWhile isLetter).length ≠ cs.length := by
      have parts := congrArg List.length (List.takeWhile_append_dropWhile (p := isLetter) (l := cs))
      rw [stop, List.length_append, List.length_cons] at parts
      omega
    rw [List.takeWhile_append, if_neg short, List.dropWhile_append, stop, List.isEmpty_cons,
      if_neg Bool.false_ne_true, List.cons_append] at read
    split at read
    case h_1 c name rest' letters shape =>
      rw [List.cons.injEq] at shape
      obtain ⟨rfl, rfl⟩ := shape
      rw [letters]
      split at read
      case isTrue alpha =>
        cases read
        exact ⟨ds, if_pos alpha, rfl⟩
      case isFalse => cases read
    case h_2 => cases read

theorem bind_eq_ok {ε α β : Type} {x : Except ε α} {f : α → Except ε β} {y : β}
    (same : (x >>= f) = .ok y) : ∃ a, x = .ok a ∧ f a = .ok y := by
  cases x with
  | error => cases same
  | ok a => exact ⟨a, rfl, same⟩

theorem ofAuthority_scheme {u : Url} (read : ofAuthority scheme cs = .ok u) :
    u.scheme = scheme := by
  unfold ofAuthority at read
  dsimp only at read
  split at read
  · cases read
  · split at read
    all_goals
      obtain ⟨host, -, read⟩ := bind_eq_ok read
      obtain ⟨port, -, read⟩ := bind_eq_ok read
      cases read
      rfl

theorem ofFile_scheme {u : Url} (read : ofFile cs = .ok u) : u.scheme = "file" := by
  have placed {hostText path : List Char} (read : fileOn hostText path = .ok u) :
      u.scheme = "file" := by
    unfold fileOn at read
    split at read
    all_goals
      obtain ⟨host, -, read⟩ := bind_eq_ok read
      cases read
      rfl
  unfold ofFile at read
  split at read
  · split at read
    · dsimp only at read
      split at read
      · exact placed read
      · exact placed read
    · exact placed read
  · exact placed read

theorem parse_web {text : String} {u : Url} (read : parse text = .ok u)
    (web : isWeb u.scheme = true) :
    ∃ cs, scheme? (tidy text) = some (u.scheme, cs) ∧
      ofAuthority u.scheme (cs.dropWhile (isSlash u.scheme)) = .ok u := by
  unfold parse at read
  split at read
  case h_1 => cases read
  case h_2 scheme cs found =>
    split at read
    case isTrue =>
      rw [ofFile_scheme read] at web
      exact absurd web (by decide)
    case isFalse =>
      split at read
      case isTrue =>
        have same := ofAuthority_scheme read
        subst same
        exact ⟨cs, found, read⟩
      case isFalse other =>
        have same : u.scheme = scheme := by
          split at read
          · exact ofAuthority_scheme read
          · cases read
            rfl
          · cases read
            rfl
        exact absurd (same ▸ web) other

theorem parse_of_scheme {text : String} (web : isWeb scheme = true)
    (read : scheme? (tidy text) = some (scheme, cs)) :
    parse text = ofAuthority scheme (cs.dropWhile (isSlash scheme)) := by
  rw [parse, read]
  dsimp only
  rw [isFile_of_isWeb web, web]
  rfl

theorem not_isPathEnd_of_isLow (low : c.toNat ≤ 0x20) : isPathEnd c = false := by
  have : ∀ n : Fin 33, isPathEnd (Char.ofNat n.val) = false := by decide
  simpa [Char.ofNat_toNat] using this ⟨c.toNat, by omega⟩

theorem not_isEnd_of_isLow (web : isWeb scheme = true) (low : c.toNat ≤ 0x20) :
    isEnd scheme c = false := by
  have : ∀ n : Fin 33, (Char.ofNat n.val == '/' || Char.ofNat n.val == '\\') = false := by decide
  rw [isEnd, isSlash_of_isWeb web, not_isPathEnd_of_isLow low, Bool.or_false]
  simpa [Char.ofNat_toNat] using this ⟨c.toNat, by omega⟩

/-- No mark that ends a path is lost from a text. -/
theorem any_tidy (text : String) : (tidy text).any isPathEnd = text.toList.any isPathEnd := by
  obtain ⟨l, r, front, back, whole⟩ := Text.padded_strip isLow text.toList
  have outside {cs : List Char} (low : ∀ c ∈ cs, isLow c = true) : cs.any isPathEnd = false := by
    rw [List.any_eq_false]
    intro c member
    simp [not_isPathEnd_of_isLow (by simpa [isLow] using low c member)]
  rw [tidy_eq]
  conv_rhs => rw [whole]
  rw [List.any_append, List.any_append, outside front, outside back, Bool.false_or, Bool.or_false,
    List.any_filter]
  congr 1
  funext c
  cases mark : isPathEnd c with
  | false => exact Bool.and_false _
  | true =>
    rw [isPathEnd, Bool.or_eq_true, beq_iff_eq, beq_iff_eq] at mark
    rcases mark with rfl | rfl <;> rfl

theorem scheme?_eq_some {rest : List Char} (read : scheme? cs = some (scheme, rest)) :
    ∃ front, cs = front ++ rest ∧ front.any isPathEnd = false := by
  unfold scheme? at read
  dsimp only at read
  split at read
  case h_2 => cases read
  case h_1 c name rest' letters stop =>
    have whole := List.takeWhile_append_dropWhile
      (p := fun c : Char => c.isAlphanum || c == '+' || c == '-' || c == '.') (l := cs)
    rw [letters, stop] at whole
    split at read
    case isFalse => cases read
    case isTrue =>
      cases read
      refine ⟨c :: name ++ [':'], by rw [← whole]; simp, ?_⟩
      rw [List.any_append, ← letters, Bool.or_eq_false_iff, List.any_eq_false]
      refine ⟨fun d member => ?_, rfl⟩
      have letter := List.mem_takeWhile_imp member
      rw [isPathEnd, Bool.or_eq_true, beq_iff_eq, beq_iff_eq]
      rintro (rfl | rfl) <;> cases letter

theorem pathOf_append_of_any {more : List Char} (mark : b.any isPathEnd = true) :
    pathOf scheme (b ++ more) = pathOf scheme b := by
  obtain ⟨c, member, ends⟩ := List.any_eq_true.mp mark
  have short : (b.takeWhile fun c => !isPathEnd c).length ≠ b.length := by
    intro full
    have all := List.takeWhile_eq_self_iff.mp
      ((List.takeWhile_prefix (fun c => !isPathEnd c)).eq_of_length full) c member
    simp [ends] at all
  unfold pathOf
  rw [List.takeWhile_append, if_neg short]

theorem pathOf_cons (web : isWeb scheme = true) (slash : isSlash scheme c = true)
    (free : (c :: b).any isPathEnd = false) :
    pathOf scheme (c :: b) = Path.resolve false [] (Path.pieces (isSlash scheme) b) := by
  have all : (c :: b).takeWhile (fun c => !isPathEnd c) = c :: b :=
    List.takeWhile_eq_self_iff.mpr (by simpa using free)
  unfold pathOf
  rw [all]
  dsimp only
  rw [if_pos slash, isFile_of_isWeb web]

theorem pathOf_ne_nil (web : isWeb scheme = true) (cs : List Char) : pathOf scheme cs ≠ [] := by
  unfold pathOf
  dsimp only
  rw [isFile_of_isWeb web]
  exact Path.resolve_ne_nil (by simp [Path.pieces, fields_ne_nil])

theorem slash_not_mem_pathOf {s : String} (web : isWeb scheme = true)
    (listed : s ∈ pathOf scheme cs) : '/' ∉ s.toList := by
  unfold pathOf at listed
  dsimp only at listed
  rw [isFile_of_isWeb web] at listed
  rcases Path.mem_resolve listed with rfl | above | piece
  · simp
  · cases above
  · obtain ⟨f, part, rfl⟩ := List.mem_map.mp piece
    refine Path.slash_not_mem_written fun member => ?_
    have other := not_mem_fields part member
    rw [isSlash_of_isWeb web] at other
    cases other

theorem ofAuthority_nil (web : isWeb scheme = true) :
    ofAuthority scheme [] = .error .emptyHost := by
  have whole := ofAuthority_web (a := []) (b := []) web (by simp) (by simp)
  rwa [List.append_nil] at whole

/-- Blanks behind an authority are refused. -/
theorem ofAuthority_blank_slash {t : List Char} (web : isWeb scheme = true)
    (free : ∀ d ∈ a, isEnd scheme d = false) (blank : ∀ d ∈ t, d.toNat ≤ 0x20) (some_ : t ≠ [])
    (u : Url) : ofAuthority scheme (a ++ t ++ ['/']) ≠ .ok u := by
  intro read
  obtain ⟨init, c, rfl⟩ := (List.eq_nil_or_concat t).resolve_left some_
  rw [List.concat_eq_append] at blank read
  have low : ∀ d ∈ a ++ (init ++ [c]), isEnd scheme d = false := by
    intro d member
    rcases List.mem_append.mp member with front | back
    · exact free d front
    · exact not_isEnd_of_isLow web (blank d back)
  rw [ofAuthority_append web low (by simp [isEnd_slash])] at read
  rw [← List.append_assoc] at low read
  cases alone : ofAuthority scheme (a ++ init ++ [c]) with
  | error e =>
    rw [alone] at read
    cases read
  | ok u => exact ofAuthority_concat web (blank c (by simp)) low u alone

/-- An address with the authority `a` and the path `b`, and the address with the blanks `t` and a
slash behind that. -/
structure GoesOn (own base : Url) (a b t : List Char) : Prop where
  web : isWeb own.scheme = true
  free : ∀ d ∈ a, isEnd own.scheme d = false
  ends : ∀ d ∈ b.head?, isEnd own.scheme d = true
  blank : ∀ d ∈ t, d.toNat ≤ 0x20
  /-- Blanks behind an authority would have been refused. -/
  inPath : b = [] → t = []
  before : own.path = .segments (pathOf own.scheme b)
  after : base = { own with path := .segments (pathOf own.scheme (b ++ t ++ ['/'])) }

theorem ofAuthority_slash {r t : List Char} {base : Url} (web : isWeb scheme = true)
    (blank : ∀ d ∈ t, d.toNat ≤ 0x20) (read : ofAuthority scheme (r ++ t ++ ['/']) = .ok base) :
    ∃ a b own, r = a ++ b ∧ r ≠ [] ∧ ofAuthority scheme r = .ok own ∧ GoesOn own base a b t := by
  have parts := List.takeWhile_append_dropWhile (p := fun d => !isEnd scheme d) (l := r)
  have free : ∀ d ∈ r.takeWhile (fun d => !isEnd scheme d), isEnd scheme d = false := by
    intro d member
    simpa using List.mem_takeWhile_imp member
  have ends : ∀ d ∈ (r.dropWhile fun d => !isEnd scheme d).head?, isEnd scheme d = true := by
    intro d first
    simpa using Text.head?_dropWhile first
  generalize r.takeWhile (fun d => !isEnd scheme d) = a at parts free
  generalize r.dropWhile (fun d => !isEnd scheme d) = b at parts ends
  subst parts
  have inPath : b = [] → t = [] := by
    rintro rfl
    by_contra some_
    rw [List.append_nil] at read
    exact ofAuthority_blank_slash web free blank some_ base read
  have ends_ : ∀ d ∈ (b ++ t ++ ['/']).head?, isEnd scheme d = true := by
    by_cases none_ : b = []
    · simp [none_, inPath none_, isEnd_slash]
    · rwa [List.append_assoc, List.head?_append_of_ne_nil _ none_]
  rw [List.append_assoc, List.append_assoc, ← List.append_assoc b,
    ofAuthority_append web free ends_] at read
  cases alone : ofAuthority scheme a with
  | error e =>
    rw [alone] at read
    cases read
  | ok u =>
    rw [alone] at read
    cases read
    cases ofAuthority_scheme alone
    refine ⟨a, b, { u with path := .segments (pathOf u.scheme b) }, rfl, ?_, ?_,
      ⟨web, free, ends, blank, inPath, rfl, rfl⟩⟩
    · rintro nothing
      obtain ⟨rfl, rfl⟩ := List.append_eq_nil_iff.mp nothing
      rw [ofAuthority_nil web] at alone
      cases alone
    · rw [ofAuthority_append web free ends, alone]
      rfl

/-- The addresses that a text gives without and with a slash at its end. -/
theorem parse_slash {text : String} {base : Url} (read : parse (text ++ "/") = .ok base)
    (web : isWeb base.scheme = true) :
    ∃ front a b t own, tidy text = front ++ (a ++ b) ∧ front.any isPathEnd = false ∧ a ++ b ≠ [] ∧
      (text.toList.filter isKept).getLast? = (a ++ b ++ t).getLast? ∧
      (∀ d ∈ (a ++ b).getLast?, ¬ d.toNat ≤ 0x20) ∧
      parse text = .ok own ∧ GoesOn own base a b t := by
  obtain ⟨cs, found, placed⟩ := parse_web read web
  rcases tidy_slash text with ⟨-, alone⟩ | ⟨t, blank, whole, last, high⟩
  · rw [alone] at found
    cases found
  · rw [whole, List.append_assoc] at found
    have free : ':' ∉ t ++ ['/'] := by
      intro member
      rcases List.mem_append.mp member with low | slash
      · exact absurd (blank ':' low) (by decide)
      · cases List.mem_singleton.mp slash
    obtain ⟨rest, found', rfl⟩ := scheme?_append free found
    obtain ⟨front, front_, unmarked⟩ := scheme?_eq_some found'
    have parts := List.takeWhile_append_dropWhile (p := isSlash base.scheme) (l := rest)
    have slashes : (rest.takeWhile (isSlash base.scheme)).any isPathEnd = false := by
      rw [List.any_eq_false]
      intro d member
      have slash := List.mem_takeWhile_imp member
      rw [isSlash_of_isWeb web, Bool.or_eq_true, beq_iff_eq, beq_iff_eq] at slash
      rcases slash with rfl | rfl <;> simp [isPathEnd]
    have here : ofAuthority base.scheme
        (rest.dropWhile (isSlash base.scheme) ++ t ++ ['/']) = .ok base := by
      rw [List.dropWhile_append] at placed
      split at placed
      case isFalse => rwa [List.append_assoc]
      case isTrue nothing =>
        -- only slashes stand before the blanks, so at most the blanks are the authority
        rw [List.isEmpty_iff.mp nothing, List.nil_append]
        cases t with
        | nil =>
          rw [List.nil_append, List.dropWhile_cons_of_pos (isSlash_slash _)] at placed
          rw [List.dropWhile_nil, ofAuthority_nil web] at placed
          cases placed
        | cons d t =>
          have other := (isEnd_eq_false_iff.mp
            (not_isEnd_of_isLow web (blank d List.mem_cons_self))).1
          rwa [List.cons_append, List.dropWhile_cons_of_neg (by simp [other])] at placed
    obtain ⟨a, b, own, same, some_, read', goes_on⟩ := ofAuthority_slash web blank here
    have text_ : tidy text = front ++ rest.takeWhile (isSlash base.scheme) ++ (a ++ b) := by
      rw [front_, ← same, List.append_assoc, parts]
    rw [same] at some_
    refine ⟨_, a, b, t, own, text_, ?_, some_, ?_, ?_, ?_, goes_on⟩
    · rw [List.any_append, unmarked, slashes]
      rfl
    · rw [last, text_, List.append_assoc,
        List.getLast?_append_of_ne_nil _ (List.append_ne_nil_of_left_ne_nil some_ t)]
    · rwa [text_, List.getLast?_append_of_ne_nil _ some_] at high
    · rw [parse_of_scheme web found', read']

end Url

end Outbox
