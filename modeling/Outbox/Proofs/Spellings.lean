import Mathlib.Data.List.Induction
import Outbox.Proofs.BoundedMap

/-! # Spellings of keys

A key is written in one way, and its name is read as that key. It is read from other names too: the
time may carry a plus sign, leading zeros, or a minus sign before a zero. A name that is spelled
plainly is the name of the key that is read from it, and an operation on the key finds that file;
with any other spelling it passes the file by.
-/

namespace Outbox.Text.Decimal

/-- The integer has no plus sign, no leading zeros, and no minus sign before a zero. -/
def Plain (cs : List Char) : Prop :=
  cs.head? ≠ some '+' ∧ (cs.head? = some '0' → cs = ['0']) ∧ ¬['-', '0'] <+: cs

instance (cs : List Char) : Decidable (Plain cs) := inferInstanceAs (Decidable (_ ∧ _ ∧ _))

theorem digitVal?_eq_some {c : Char} {d : Nat} (digit : digitVal? c = some d) :
    d < 10 ∧ digitChar d = c := by
  unfold digitVal? at digit
  split at digit
  · next bounds =>
    cases digit
    refine ⟨by omega, ?_⟩
    rw [digitChar, Nat.add_sub_cancel' bounds.1]
    exact Char.ofNat_toNat c
  · cases digit

/-- Only zero is written with a zero in front. -/
theorem eq_zero_of_head_ofNat {n : Nat} (zero : (ofNat n).head? = some '0') : n = 0 := by
  induction n using ofNat.induct with
  | case1 n small =>
    rw [ofNat, if_pos small] at zero
    have all : ∀ d : Fin 10, digitChar d.val = '0' → d.val = 0 := by decide
    exact all ⟨n, small⟩ (Option.some.inj zero)
  | case2 n large ih =>
    rw [ofNat, if_neg large, List.head?_append_of_ne_nil _ (ofNat_ne_nil _)] at zero
    have front := ih zero
    omega

theorem ofNat_zero : ofNat 0 = ['0'] := by
  rw [ofNat]
  rfl

/-- Digits without leading zeros are what is written for their number. -/
theorem ofNat_of_readDigits {ds : List Char} {n : Nat} (read : readDigits 0 ds = some n)
    (filled : ds ≠ []) (plain : ds.head? = some '0' → ds = ['0']) : ofNat n = ds := by
  -- from the end, because a number is written with its last digit put behind the others
  induction ds using List.reverseRecOn generalizing n with
  | nil => exact absurd rfl filled
  | append_singleton front c ih =>
    rw [readDigits_append] at read
    obtain ⟨v, before, last⟩ := Option.bind_eq_some_iff.mp read
    obtain ⟨d, digit, value⟩ : ∃ d, digitVal? c = some d ∧ v * 10 + d = n := by
      cases digit : digitVal? c with
      | none => simp [readDigits, digit] at last
      | some d => exact ⟨d, rfl, by simpa [readDigits, digit] using last⟩
    obtain ⟨small, rfl⟩ := digitVal?_eq_some digit
    by_cases empty : front = []
    · subst empty
      have none_ : v = 0 := (Option.some.inj before).symm
      rw [← value, none_, Nat.zero_mul, Nat.zero_add, ofNat, if_pos small, List.nil_append]
    · have notZero : front.head? ≠ some '0' := by
        intro zero
        rw [List.head?_append_of_ne_nil _ empty] at plain
        exact empty (by simpa using congrArg List.length (plain zero))
      have written := ih before empty fun zero => absurd zero notZero
      have positive : v ≠ 0 := by
        rintro rfl
        rw [ofNat_zero] at written
        rw [← written] at notZero
        exact notZero rfl
      rw [ofNat, if_neg (by omega), show n / 10 = v by omega, show n % 10 = d by omega, written]

theorem ofNat_of_readNat? {ds : List Char} {n : Nat} (read : readNat? ds = some n)
    (plain : ds.head? = some '0' → ds = ['0']) : ofNat n = ds := by
  cases ds with
  | nil => cases read
  | cons d ds => exact ofNat_of_readDigits read (List.cons_ne_nil d ds) plain

theorem plain_ofInt (i : Int) : Plain (ofInt i) := by
  obtain ⟨d, ds, small, shape⟩ := head_ofNat i.natAbs
  obtain ⟨notMinus, notPlus⟩ := digitChar_ne_sign small
  unfold ofInt
  split
  · next negative =>
    refine ⟨by simp, by simp, fun zero => ?_⟩
    have first : (ofNat i.natAbs).head? = some '0' := by
      rw [shape] at zero ⊢
      rw [List.cons_prefix_cons, List.cons_prefix_cons] at zero
      rw [List.head?_cons, zero.2.1]
    have := eq_zero_of_head_ofNat first
    omega
  · refine ⟨?_, fun zero => ?_, fun zero => ?_⟩
    · rw [shape]
      exact fun plus => notPlus (Option.some.inj plus)
    · rw [eq_zero_of_head_ofNat zero, ofNat_zero]
    · rw [shape, List.cons_prefix_cons] at zero
      exact notMinus zero.1.symm

/-- An integer is read from its own text exactly if that is plain. -/
theorem ofInt_eq_iff_plain {cs : List Char} {i : Int} (read : readInt? cs = some i) :
    ofInt i = cs ↔ Plain cs := by
  refine ⟨fun written => written ▸ plain_ofInt i, ?_⟩
  rintro ⟨notPlus, noZeros, notZero⟩
  unfold readInt? at read
  split at read
  · exact absurd rfl notPlus
  · next ds =>
    obtain ⟨n, digits, rfl⟩ := Option.map_eq_some_iff.mp read
    have noZero : ds.head? ≠ some '0' := by
      intro zero
      cases ds with
      | nil => cases zero
      | cons d ds =>
        rw [List.head?_cons, Option.some.injEq] at zero
        exact notZero (by simp [zero])
    have written := ofNat_of_readNat? digits fun zero => absurd zero noZero
    have positive : n ≠ 0 := by
      rintro rfl
      rw [ofNat_zero] at written
      exact noZero (written ▸ rfl)
    rw [ofInt, if_pos (by simp only [Int.ofNat_eq_natCast]; omega)]
    simp [written]
  · obtain ⟨n, digits, rfl⟩ := Option.map_eq_some_iff.mp read
    rw [ofInt, if_neg (by simp), Int.ofNat_eq_natCast, Int.natAbs_natCast]
    exact ofNat_of_readNat? digits noZeros

theorem isSome_of_readDigits {ds : List Char} {acc n : Nat} (read : readDigits acc ds = some n) :
    ∀ c ∈ ds, (digitVal? c).isSome = true := by
  induction ds generalizing acc with
  | nil => simp
  | cons c ds ih =>
    rw [readDigits] at read
    cases digit : digitVal? c with
    | none => simp [digit] at read
    | some d =>
      rw [digit] at read
      intro x member
      rcases List.mem_cons.mp member with rfl | later
      · rw [digit]
        rfl
      · exact ih read x later

theorem digits_of_readNat? {ds : List Char} {n : Nat} (read : readNat? ds = some n) :
    ds ≠ [] ∧ ∀ c ∈ ds, (digitVal? c).isSome = true := by
  cases ds with
  | nil => cases read
  | cons d ds => exact ⟨List.cons_ne_nil d ds, isSome_of_readDigits read⟩

/-- What is read as an integer holds signs and digits only. -/
theorem shape_of_readInt? {cs : List Char} {i : Int} (read : readInt? cs = some i) :
    cs ≠ [] ∧ ∀ c ∈ cs, c = '+' ∨ c = '-' ∨ (digitVal? c).isSome = true := by
  unfold readInt? at read
  split at read
  · obtain ⟨n, number, _⟩ := Option.map_eq_some_iff.mp read
    have all := (digits_of_readNat? number).2
    grind
  · obtain ⟨n, number, _⟩ := Option.map_eq_some_iff.mp read
    have all := (digits_of_readNat? number).2
    grind
  · obtain ⟨n, number, _⟩ := Option.map_eq_some_iff.mp read
    obtain ⟨filled, all⟩ := digits_of_readNat? number
    exact ⟨filled, fun c member => .inr (.inr (all c member))⟩

/-- What is read as an integer holds neither separators nor points. -/
theorem mem_plain_of_readInt? {cs : List Char} {i : Int} (read : readInt? cs = some i) {c : Char}
    (member : c ∈ cs) : c ≠ '_' ∧ c ≠ '.' := by
  rcases (shape_of_readInt? read).2 c member with rfl | rfl | digit
  · decide
  · decide
  · constructor <;> rintro rfl <;> exact absurd digit (by decide)

theorem readInt?_of_readRanged? {lo hi : Int} {cs : List Char} {r : Ranged lo hi}
    (read : readRanged? cs = some r) : readInt? cs = some r.val := by
  unfold readRanged? at read
  split at read
  · cases read
  · obtain ⟨i, read, inside⟩ := Option.bind_eq_some_iff.mp read
    rw [read, Ranged.ofInt?_eq_some_iff.mp inside]

end Outbox.Text.Decimal

namespace Outbox.Storage

open Text

namespace Key

theorem cut_eq_some {cs a b : List Char} (found : cut cs = some (a, b)) :
    cs = a ++ '_' :: b ∧ ∀ c ∈ a, c ≠ '_' := by
  induction cs generalizing a with
  | nil => cases found
  | cons c cs ih =>
    rw [cut] at found
    split at found
    · next separator =>
      cases found
      exact ⟨by rw [separator]; rfl, by simp⟩
    · next plain =>
      obtain ⟨⟨a', b'⟩, later, same⟩ := Option.map_eq_some_iff.mp found
      cases same
      obtain ⟨rfl, rest⟩ := ih later
      refine ⟨rfl, fun d member => ?_⟩
      rcases List.mem_cons.mp member with rfl | inside
      · exact plain
      · exact rest d inside

theorem stem?_eq_some {cs stem : List Char} (found : stem? cs = some stem) :
    cs = stem ++ keySuffix := by
  unfold stem? at found
  split at found
  · next suffix =>
    obtain ⟨front, rfl⟩ := List.isSuffixOf_iff_suffix.mp suffix
    cases found
    rw [List.length_append, Nat.add_sub_cancel, List.take_left']
    rfl
  · cases found

/-- A name is read as a key exactly if it spells the time of the key in some way, and then has its
kind and id as they are written. -/
theorem ofName?_eq_ok_iff {name : String} {k : Key} : ofName? name = .ok k ↔
    ∃ time : List Char, Decimal.readRanged? time = some k.timestamp ∧
      name.toList = time ++ '_' :: (k.kind.name.toList ++ '_' :: k.id.toList ++ keySuffix) := by
  constructor
  · intro read
    unfold ofName? at read
    split at read
    · cases read
    next stem stemmed =>
    split at read
    · cases read
    next time rest first =>
    split at read
    · cases read
    next kind id second =>
    split at read
    · cases read
    next timestamp number =>
    split at read
    · cases read
    next kind' named =>
    unfold make at read
    split at read <;> cases read
    have kindName : kind'.name = String.ofList kind := by
      simpa [Kind.ofName?] using List.find?_some named
    refine ⟨time, number, ?_⟩
    rw [stem?_eq_some stemmed, (cut_eq_some first).1, (cut_eq_some second).1, kindName]
    simp
  · rintro ⟨time, number, text⟩
    have integer := Decimal.readInt?_of_readRanged? number
    have plain : ∀ c ∈ time, c ≠ '_' :=
      fun c member => (Decimal.mem_plain_of_readInt? integer member).1
    have whole : name.toList =
        (time ++ '_' :: (k.kind.name.toList ++ '_' :: k.id.toList)) ++ keySuffix := by
      rw [text]
      simp
    rw [ofName?, whole, stem?_append]
    simp only [cut_append plain, cut_append (kind_plain k.kind), number, String.ofList_toList,
      Kind.ofName?_name]
    rw [make, dif_pos k.valid]

/-- What a name has before its first separator. -/
def timeText (name : String) : List Char := name.toList.takeWhile (· != '_')

/-- The time in a name that is read as a key is spelled in some way. -/
theorem exists_spelling {name : String} {k : Key} (read : ofName? name = .ok k) :
    Decimal.readInt? (timeText name) = some k.timestamp.val ∧ name.toList = timeText name ++
      '_' :: (k.kind.name.toList ++ '_' :: k.id.toList ++ keySuffix) := by
  obtain ⟨time, number, text⟩ := ofName?_eq_ok_iff.mp read
  have integer := Decimal.readInt?_of_readRanged? number
  have plain : ∀ c ∈ time, (c != '_') = true :=
    fun c member => bne_iff_ne.mpr (Decimal.mem_plain_of_readInt? integer member).1
  have front : timeText name = time := by
    rw [timeText, text, List.takeWhile_append_of_pos plain]
    simp
  rw [front]
  exact ⟨integer, text⟩

/-- A name that is read as a key is the name of that key exactly if its time is spelled plainly. -/
theorem name_eq_iff {name : String} {k : Key} (read : ofName? name = .ok k) :
    k.name = name ↔ Decimal.Plain (timeText name) := by
  obtain ⟨integer, text⟩ := exists_spelling read
  have written : k.name.toList = Decimal.ofInt k.timestamp.val ++
      '_' :: (k.kind.name.toList ++ '_' :: k.id.toList ++ keySuffix) := by
    rw [Key.name, String.toList_ofList, chars]
    simp
  rw [← Decimal.ofInt_eq_iff_plain integer, ← String.toList_inj, written, text]
  exact List.append_left_inj _

end Key

namespace Store

/-- What is read as a key is no name of a file that is still being written. -/
theorem keyOf?_of_read {name : String} {k : Key} (read : Key.ofName? name = .ok k) :
    keyOf? name = some k := by
  obtain ⟨integer, text⟩ := Key.exists_spelling read
  have filled := (Decimal.shape_of_readInt? integer).1
  obtain ⟨c, cs, front⟩ := List.exists_cons_of_ne_nil filled
  have notPoint : c ≠ '.' := (Decimal.mem_plain_of_readInt? integer (by rw [front]; simp)).2
  rw [front] at text
  have notTemporary := isTemporary_of_head text notPoint
  rw [keyOf?, notTemporary, read]
  rfl

open Place

variable {s : Store} {k : Key} {name : String}

theorem mem_stored_of_entry {node : Node} (found : entry? s.place.entries name = some node)
    (read : keyOf? name = some k) : k ∈ s.stored.1 :=
  s.stored_perm.mem_iff.mpr (mem_keys_of_entry found read)

/-- A payload that was stored is listed, unless the quota took it. -/
theorem mem_stored_put {draft : Draft} {pruned : List Key}
    (done : (s.put k draft).2.2 = .ok pruned) (kept : k ∉ pruned) :
    k ∈ (s.put k draft).1.stored.1 := by
  cases result : draft.payload? with
  | error e =>
    have failed := (put_of_error result s k).1
    rw [done] at failed
    cases failed
  | ok b =>
    rw [put_eq_putBytes result] at done ⊢
    rcases s.putBytes_eq k b with ⟨_, reports, stored⟩ | ⟨⟨e, failed⟩, _⟩
    · rw [stored] at done ⊢
      cases done
      rw [enforce_place]
      exact mem_stored_of_entry
        ((entry?_deleteAll kept).trans (entry?_withEntry_self _ _ _)) (keyOf?_name k)
    · rw [done] at failed
      cases failed

/-! ## Files that are reached and files that are passed by -/

/-- The operations on the key are about the file of this name: loading opens it, deleting takes it
away, and the quota takes it away exactly if the key is one of those that it returns. -/
structure Reaches (s : Store) (name : String) (k : Key) : Prop where
  load : ∃ node, entry? s.place.entries name = some node ∧ (s.load k).2 = .ok (some node)
  delete : entry? (s.delete k).1.place.entries name = none
  enforce : ∀ max, entry? (s.enforce max).1.place.entries name = none ↔ k ∈ (s.enforce max).2.2

/-- No operation is about the file of this name, although the key is listed for it: no key has the
name, and whatever is called on the store, the file stays and so does the key in the list. -/
structure PassesBy (s : Store) (name : String) (k : Key) : Prop where
  unnamed : ∀ l : Key, name ≠ l.name
  stays : ∀ calls, entry? (runCalls Store.perform s calls).1.place.entries name =
    entry? s.place.entries name
  listed : ∀ calls, k ∈ (runCalls Store.perform s calls).1.stored.1

theorem reaches_own {content : Content} (fit : fits k.name = true)
    (found : entry? s.place.entries k.name = some (.file content)) : s.Reaches k.name k where
  load := by
    have there : s.place.openFile k.name = .ok (.file content) :=
      openFile_eq_ok_iff.mpr ⟨fit, found⟩
    exact ⟨.file content, found, by simp [Store.load, there]⟩
  delete :=
    (delete_lacks (openFile_eq_ok_iff.mpr ⟨fit, found⟩)).entry?_eq_none fit
  enforce max := by
    rw [enforce_place]
    constructor
    · intro missing
      by_contra kept
      rw [entry?_deleteAll kept, found] at missing
      cases missing
    · intro pruned
      exact (deleteAll_lacks pruned (openFile_eq_ok_iff.mpr ⟨fit, found⟩)).entry?_eq_none fit

theorem entry?_putBytes_of_unnamed (unnamed : ∀ l : Key, name ≠ l.name) (s : Store) (k : Key)
    (b : Bytes) :
    entry? (s.putBytes k b).1.place.entries name = entry? s.place.entries name := by
  rcases s.putBytes_eq k b with ⟨_, reports, stored⟩ | ⟨_, same, _⟩
  · rw [stored, enforce_place, entry?_deleteAll_of_ne fun l _ => unnamed l]
    exact entry?_withEntry_of_ne (unnamed k) _
  · rw [same]

/-- A call leaves a file alone whose name is not the one of a key. -/
theorem entry?_perform (unnamed : ∀ l : Key, name ≠ l.name) (s : Store) (call : StoreCall) :
    entry? (s.perform call).1.place.entries name = entry? s.place.entries name := by
  cases call with
  | put k draft =>
    cases result : draft.payload? with
    | error e => exact congrArg (fun es => entry? es name) (put_of_error result s k).2.2
    | ok b =>
      simp only [perform, put_eq_putBytes result]
      exact entry?_putBytes_of_unnamed unnamed s k b
  | putBytes k b => exact entry?_putBytes_of_unnamed unnamed s k b
  | delete k => exact entry?_delete_of_ne s k (unnamed k)
  | enforce max =>
    simp only [perform, enforce_place]
    exact entry?_deleteAll_of_ne fun l _ => unnamed l
  | loadBytes | stored => rfl

theorem entry?_runCalls (unnamed : ∀ l : Key, name ≠ l.name) (s : Store)
    (calls : List StoreCall) :
    entry? (runCalls Store.perform s calls).1.place.entries name =
      entry? s.place.entries name := by
  induction calls generalizing s with
  | nil => rfl
  | cons call calls ih => exact (ih (s.perform call).1).trans (entry?_perform unnamed s call)

theorem passesBy_of_unnamed {node : Node} (found : entry? s.place.entries name = some node)
    (read : keyOf? name = some k) (unnamed : ∀ l : Key, name ≠ l.name) : s.PassesBy name k where
  unnamed := unnamed
  stays := entry?_runCalls unnamed s
  listed calls := mem_stored_of_entry ((entry?_runCalls unnamed s calls).trans found) read

end Store

open Place

/-- The name of a key holds all of it. It is read back as that key and no other key has it. It is a
name that a file can have, it is not taken for one of a file that is still being written, and what
is stored under it is listed under its key. -/
theorem name_holds_key {timestamp : Millis} {kind : Kind} {id : String} {k : Key}
    (made : Key.make timestamp kind id = .ok k) :
    (k.timestamp = timestamp ∧ k.kind = kind ∧ k.id = id) ∧
      Key.ofName? k.name = .ok k ∧ (∀ l : Key, l.name = k.name → l = k) ∧
      (∀ c ∈ k.name.toList, c ≠ '/' ∧ c ≠ '\\' ∧ c ≠ '\x00') ∧
      Store.isTemporary k.name = false ∧
      ∀ s : Store,
        (∀ node, entry? s.place.entries k.name = some node → k ∈ s.stored.1) ∧
        ∀ draft pruned, (s.put k draft).2.2 = .ok pruned → k ∉ pruned →
          k ∈ (s.put k draft).1.stored.1 := by
  have parts : k.timestamp = timestamp ∧ k.kind = kind ∧ k.id = id := by
    unfold Key.make at made
    split at made
    · cases made
      exact ⟨rfl, rfl, rfl⟩
    · cases made
  refine ⟨parts, Key.ofName?_name k, fun l same => Key.name_injective same, fun c member => ?_,
    Store.isTemporary_name k, fun s => ⟨fun node found => ?_, fun draft pruned done kept => ?_⟩⟩
  · simpa [isForbidden, and_assoc] using Key.isForbidden_of_mem_name member
  · exact Store.mem_stored_of_entry found (Store.keyOf?_name k)
  · exact Store.mem_stored_put done kept

/-- An id that holds separators, the suffix, and a letter of two bytes, with the earliest time. -/
theorem name_holds_key_of_awkward :
    let earliest : Millis := .clamp (-9223372036854775808)
    ∃ k, Key.make earliest .log "_é_v1.gz_v1" = .ok k ∧ Key.ofName? k.name = .ok k ∧
      k.timestamp = earliest ∧ k.id = "_é_v1.gz_v1" := by
  intro earliest
  obtain ⟨k, made⟩ : ∃ k, Key.make earliest .log "_é_v1.gz_v1" = .ok k :=
    ⟨_, dif_pos (by decide +kernel)⟩
  obtain ⟨⟨time, -, id⟩, read, -⟩ := name_holds_key made
  exact ⟨k, made, read, time, id⟩

/-- What is read from a name says what the name is, exactly if its time is spelled plainly. The
operations on a key that was read so are about the file of that name. With any other spelling the
file has a second name, the one of the key, and no operation is about it, though it is listed. -/
theorem read_exactly_iff_plain {name : String} {k : Key} (read : Key.ofName? name = .ok k) :
    (k.name = name ↔ Decimal.Plain (Key.timeText name)) ∧
      (∀ other, Key.ofName? other = .ok k → Decimal.Plain (Key.timeText name) →
        Decimal.Plain (Key.timeText other) → other = name) ∧
      ∀ (s : Store) (content : Content), fits name = true →
        entry? s.place.entries name = some (.file content) →
        k ∈ s.stored.1 ∧ (s.Reaches name k ↔ Decimal.Plain (Key.timeText name)) ∧
          (¬Decimal.Plain (Key.timeText name) → s.PassesBy name k) := by
  have named := Key.name_eq_iff read
  refine ⟨named, fun other read' plain plain' => ?_, fun s content fit found => ?_⟩
  · exact ((Key.name_eq_iff read').mpr plain').symm.trans (named.mpr plain)
  · have listed := Store.keyOf?_of_read read
    -- with another spelling the name is the one of no key at all, so no operation asks for it
    have passed : ¬Decimal.Plain (Key.timeText name) → s.PassesBy name k := by
      intro notPlain
      refine Store.passesBy_of_unnamed found listed fun l same => notPlain ?_
      rw [same, Key.ofName?_name] at read
      exact named.mp (Except.ok.inj read ▸ same.symm)
    refine ⟨Store.mem_stored_of_entry found listed, ⟨fun reached => ?_, fun plain => ?_⟩, passed⟩
    · by_contra notPlain
      have stays := (passed notPlain).stays [.delete k]
      have gone : entry? s.place.entries name = none := stays.symm.trans reached.delete
      rw [found] at gone
      cases gone
    · have own := named.mpr plain
      subst own
      exact Store.reaches_own fit found

/-- Two files next to each other that are read as one key. -/
theorem read_exactly_iff_plain_of_zeros :
    let k : Key := ⟨7, .log, "a", rfl⟩
    let s : Store := ⟨.folder [("7_log_a_v1.gz", .file (.gzip [1])),
      ("007_log_a_v1.gz", .file (.gzip [2]))], 5⟩
    Key.ofName? "7_log_a_v1.gz" = .ok k ∧ Key.ofName? "007_log_a_v1.gz" = .ok k ∧
      s.Reaches "7_log_a_v1.gz" k ∧ s.PassesBy "007_log_a_v1.gz" k := by
  intro k s
  have plain : Key.ofName? "7_log_a_v1.gz" = .ok k := by decide +kernel
  have zeros : Key.ofName? "007_log_a_v1.gz" = .ok k := by decide +kernel
  have reached := ((read_exactly_iff_plain plain).2.2 s (.gzip [1]) (by decide +kernel)
    (by decide +kernel)).2.1
  have passed := ((read_exactly_iff_plain zeros).2.2 s (.gzip [2]) (by decide +kernel)
    (by decide +kernel)).2.2
  exact ⟨plain, zeros, reached.mpr (by decide +kernel), passed (by decide +kernel)⟩

/-- A name with leading zeros is read as a key that has another name. The store lists the key, finds
nothing under it, and counts it among the deleted ones while the file stays. -/
theorem read_from_other_spelling :
    let k : Key := ⟨7, .log, "a", rfl⟩
    let s : Store := ⟨.folder [("007_log_a_v1.gz", .file (.gzip [1]))], 5⟩
    Key.ofName? "007_log_a_v1.gz" = .ok k ∧ k.name ≠ "007_log_a_v1.gz" ∧ s.stored.1 = [k] ∧
      (s.loadBytes k).2 = .ok none ∧ (s.delete k).1 = s ∧ (s.enforce 0).2.2 = [k] ∧
      (s.enforce 0).1 = s := by
  decide +kernel

end Outbox.Storage
