import Mathlib
import Outbox.Proofs.JsonMeaning

/-! # What the text of a delivery may look like

The record of a delivery is an object. Its members are found by their names, in whatever order they
stand and whatever else stands between them. Two of them may be left out; each of the others has to
be there, none may be there twice, and its value has to show what the field holds.
-/

namespace Outbox.Pending

open Json (Derives Titled Spells Unescapes word)

/-- A field of the record. -/
inductive Field where
  | id
  | endpoint
  | payload
  | created
  | sequence
  | retries
  | lastAttempt
  deriving DecidableEq

namespace Field

def all : List Field := [id, endpoint, payload, created, sequence, retries, lastAttempt]

def name : Field → String
  | id => "id"
  | endpoint => "endpoint"
  | payload => "payload"
  | created => "created_at_ms"
  | sequence => "sequence"
  | retries => "retry_count"
  | lastAttempt => "last_attempt_ms"

/-- The least and the greatest number that a field holds. -/
def range? : Field → Option (Int × Int)
  | created | lastAttempt => some (-2 ^ 63, 2 ^ 63 - 1)
  | sequence => some (0, 2 ^ 64 - 1)
  | retries => some (0, 2 ^ 32 - 1)
  | id | endpoint | payload => none

theorem mem_all (f : Field) : f ∈ all := by
  cases f <;> decide

theorem name_injective {f g : Field} (same : f.name = g.name) : f = g := by
  cases f <;> cases g <;> first | rfl | exact absurd same (by decide)

end Field

variable (p : Pending)

/-- The value shows what the field of the delivery holds. -/
def Shows : Field → Json → Prop
  | .id, j => ∃ raw, j = .string raw ∧ Spells raw p.id
  | .endpoint, j =>
    ∃ raw, (j = .string raw ∨ j = .object [(raw, .null)]) ∧ Spells raw p.endpoint.name
  | .payload, j => ∃ raw, j = .string raw ∧ Unescapes raw (Text.Base64.encode p.payload)
  | .created, j => j = .ofInt p.created.val
  | .sequence, j => j = .ofInt p.sequence.val
  | .retries, j => j = .ofInt p.retries.val
  | .lastAttempt, j => j = .ofOption (fun t => .ofInt t.val) p.lastAttempt

/-- Nothing has to be said of the field. -/
def Omits : Field → Prop
  | .sequence => p.sequence = 0
  | .lastAttempt => p.lastAttempt = none
  | _ => False

/-- The members describe the delivery: each field is shown once, or not at all where it may be left
out. -/
structure Describes (named : List (String × Json)) : Prop where
  once : ∀ f : Field, (named.map Prod.fst).count f.name ≤ 1
  shows : ∀ (f : Field) (j : Json), (f.name, j) ∈ named → p.Shows f j
  omits : ∀ f : Field, f.name ∉ named.map Prod.fst → p.Omits f

/-- The members show the fields, each one its own. -/
def ShowsAll (fields : List Field) (shown : List (String × Json)) : Prop :=
  List.Forall₂ (fun f m => m.1 = f.name ∧ p.Shows f m.2) fields shown

/-- The members show these fields, in any order and with any others among them. -/
def ShownAmong (fields : List Field) (named : List (String × Json)) : Prop :=
  ∃ shown others, named.Perm (shown ++ others) ∧ p.ShowsAll fields shown ∧
    ∀ m ∈ others, ∀ f : Field, m.1 ≠ f.name

/-- The delivery that is described when these fields are left out. -/
def leaveOut (left : List Field) : Pending :=
  { p with
    sequence := if .sequence ∈ left then 0 else p.sequence
    lastAttempt := if .lastAttempt ∈ left then none else p.lastAttempt }

/-- What is found under the name of the field, if anything is, is read as what the field holds. -/
def ReadAs : Field → Option Json → Prop
  | .id, o => Json.required? Json.asString? o = some p.id
  | .endpoint, o =>
    Json.required? (Json.asOneOf? Endpoint.all Endpoint.name) o = some p.endpoint
  | .payload, o => Json.required? payload? o = some p.payload
  | .created, o => Json.required? Json.asRanged? o = some p.created
  | .sequence, o => Json.defaulted? Json.asRanged? (0 : Word64) o = some p.sequence
  | .retries, o => Json.required? Json.asRanged? o = some p.retries
  | .lastAttempt, o => Json.optional? Json.asRanged? false o = some p.lastAttempt

variable {p} {text : Bytes} {members : List (Bytes × Json)} {named : List (String × Json)}

/-! ## Reading the fields -/

theorem payload?_eq_some_iff {j : Json} {b : Bytes} :
    payload? j = some b ↔ ∃ raw, j = .string raw ∧ Unescapes raw (Text.Base64.encode b) := by
  obtain ⟨s, encoded⟩ := Text.Base64.exists_ofString b
  unfold payload?
  split
  · next raw =>
    simp only [Option.bind_eq_some_iff, Json.text?_eq_some_iff,
      Text.Base64.decode?_eq_some_iff, Json.string.injEq, exists_eq_left']
    constructor
    · rintro ⟨s', spells, same⟩
      exact same ▸ spells
    · exact fun unescapes => ⟨s, by rwa [Spells, encoded], encoded⟩
  · next other => simpa using fun raw shape => absurd shape (other raw)

theorem optional?_eq_some_iff {lo hi : Int} {j : Json} {b : Bytes} (written : Derives (.value j) b)
    {o : Option (Ranged lo hi)} : Json.optional? Json.asRanged? false (some j) = some o ↔
      j = .ofOption (fun t => .ofInt t.val) o := by
  have number {r : Ranged lo hi} := Json.asRanged?_eq_some_iff written (r := r)
  by_cases null : j = .null
  · subst null
    cases o <;> simp [Json.optional?, Json.ofOption, Json.ofInt_eq]
  · rw [Json.optional?]
    · cases o with
      | none => simp [Json.ofOption, null]
      | some r => simp [Json.ofOption, number]
    · exact null

theorem readAs_some {f : Field} {j : Json} {b : Bytes} (written : Derives (.value j) b) :
    p.ReadAs f (some j) ↔ p.Shows f j := by
  cases f with
  | id => exact Json.asString?_eq_some_iff
  | endpoint => exact Json.asOneOf?_eq_some_iff (Endpoint.ofName?_name p.endpoint)
  | payload => exact payload?_eq_some_iff
  | created | sequence | retries => exact Json.asRanged?_eq_some_iff written
  | lastAttempt => exact optional?_eq_some_iff written

theorem readAs_none {f : Field} : p.ReadAs f none ↔ p.Omits f := by
  cases f with
  | sequence | lastAttempt =>
    simp [ReadAs, Omits, Json.defaulted?, Json.optional?, eq_comm]
  | _ => simp [ReadAs, Omits, Json.required?]

theorem fields?_object (names : Titled members named) {fields : Json.Fields} :
    Json.fields? fieldNames (.object members) = some fields ↔
      (∀ f : Field, (named.map Prod.fst).count f.name ≤ 1) ∧
        fields = ⟨false, Field.all.map fun f => Json.lookup f.name named⟩ := by
  have count (n : String) : (named.filter fun m => m.1 == n).length =
      (named.map Prod.fst).count n := by
    rw [List.count, List.countP_map, List.countP_eq_length_filter]
    rfl
  have declared : fieldNames = Field.all.map Field.name := rfl
  simp only [Json.fields?, Json.named?_eq_some_iff.mpr names, count, declared, List.all_map,
    List.map_map]
  have all : (Field.all.all fun f => decide ((named.map Prod.fst).count f.name ≤ 1)) = true ↔
      ∀ f : Field, (named.map Prod.fst).count f.name ≤ 1 := by
    simp [Field.mem_all]
  rw [← all]
  simp only [Function.comp_def]
  split
  · next once =>
    exact ⟨fun same => ⟨once, (Option.some.inj same).symm⟩, fun both => both.2 ▸ rfl⟩
  · next twice =>
    refine ⟨fun none => ?_, fun both => absurd both.1 twice⟩
    cases none

theorem ofJson?_object (names : Titled members named) :
    ofJson? (.object members) = some p ↔
      (∀ f : Field, (named.map Prod.fst).count f.name ≤ 1) ∧
        ∀ f : Field, p.ReadAs f (Json.lookup f.name named) := by
  constructor
  · intro read
    unfold ofJson? at read
    split at read
    · next found =>
      obtain ⟨once, shape⟩ := (fields?_object names).mp found
      refine ⟨once, ?_⟩
      simp only [Field.all, List.map_cons, List.map_nil, Json.Fields.mk.injEq, List.cons.injEq,
        and_true] at shape
      obtain ⟨rfl, rfl, rfl, rfl, rfl, rfl, rfl, rfl⟩ := shape
      simp only [Option.bind_eq_bind, Option.bind_eq_some_iff, Option.pure_def,
        Option.some.injEq] at read
      obtain ⟨_, id, _, endpoint, _, payload, _, created, _, sequence, _, retries, _, last, rfl⟩ :=
        read
      intro f
      cases f <;> assumption
    · cases read
  · rintro ⟨once, fields⟩
    have found := (fields?_object names).mpr ⟨once, rfl⟩
    simp only [Field.all, List.map_cons, List.map_nil] at found
    simp only [ofJson?, found, Option.bind_eq_bind, Option.bind_eq_some_iff, Option.pure_def]
    exact ⟨_, fields .id, _, fields .endpoint, _, fields .payload, _, fields .created,
      _, fields .sequence, _, fields .retries, _, fields .lastAttempt, rfl⟩

/-- The text of an object is read as the delivery that its members describe. -/
theorem decode?_eq_some_iff (object : Derives (.element (.object members)) text)
    (names : Titled members named) : decode? text = some p ↔ p.Describes named := by
  have written := names.values object
  have held (f : Field) (once : (named.map Prod.fst).count f.name ≤ 1) :
      p.ReadAs f (Json.lookup f.name named) ↔
        (∀ j, (f.name, j) ∈ named → p.Shows f j) ∧ (f.name ∉ named.map Prod.fst → p.Omits f) := by
    rw [Json.lookup_iff once (p.ReadAs f), readAs_none]
    refine and_congr_left fun _ => forall₂_congr fun j member => ?_
    obtain ⟨t, value⟩ := written _ member
    exact readAs_some value
  rw [decode?, Json.read?_eq_some_iff.mpr object, Option.bind_some, ofJson?_object names]
  constructor
  · rintro ⟨once, fields⟩
    exact ⟨once, fun f => ((held f (once f)).mp (fields f)).1,
      fun f => ((held f (once f)).mp (fields f)).2⟩
  · rintro ⟨once, shows, omits⟩
    exact ⟨once, fun f => (held f (once f)).mpr ⟨shows f, omits f⟩⟩

/-! ## Order, other members, and fields that are left out -/

theorem ShowsAll.names {fields : List Field} {shown : List (String × Json)}
    (all : p.ShowsAll fields shown) : shown.map Prod.fst = fields.map Field.name := by
  induction all with
  | nil => rfl
  | cons first _ ih => rw [List.map_cons, List.map_cons, first.1, ih]

theorem ShowsAll.shows {fields : List Field} {shown : List (String × Json)}
    (all : p.ShowsAll fields shown) {m : String × Json} (member : m ∈ shown) :
    ∃ f ∈ fields, m.1 = f.name ∧ p.Shows f m.2 := by
  induction all with
  | nil => cases member
  | cons first _ ih =>
    rcases List.mem_cons.mp member with rfl | member
    · exact ⟨_, by simp, first⟩
    · obtain ⟨f, listed, shows⟩ := ih member
      exact ⟨f, .tail _ listed, shows⟩

/-- Members that show some of the fields describe the delivery if nothing has to be said of the
others. -/
theorem ShownAmong.describes {fields : List Field} (shown : p.ShownAmong fields named)
    (distinct : fields.Nodup) (omits : ∀ f ∉ fields, p.Omits f) : p.Describes named := by
  obtain ⟨shown, others, perm, all, foreign⟩ := shown
  have fronts := perm.map Prod.fst
  rw [List.map_append, all.names] at fronts
  refine ⟨fun f => ?_, fun f j member => ?_, fun f absent => ?_⟩
  · have absent : (others.map Prod.fst).count f.name = 0 := by
      refine List.count_eq_zero.mpr fun member => ?_
      obtain ⟨m, listed, same⟩ := List.mem_map.mp member
      exact foreign m listed f same
    have once := distinct.map fun _ _ => Field.name_injective
    rw [fronts.count_eq, List.count_append, absent]
    exact List.nodup_iff_count_le_one.mp once f.name
  · rcases List.mem_append.mp (perm.mem_iff.mp member) with listed | listed
    · obtain ⟨g, _, same, shows⟩ := all.shows listed
      exact Field.name_injective same ▸ shows
    · exact absurd rfl (foreign _ listed f)
  · refine omits f fun listed => absent ?_
    rw [fronts.mem_iff]
    exact List.mem_append_left _ (List.mem_map_of_mem listed)

theorem ShownAmong.leaveOut {left : List Field}
    (shown : p.ShownAmong (Field.all.filter (· ∉ left)) named) :
    (p.leaveOut left).ShownAmong (Field.all.filter (· ∉ left)) named := by
  have kept {f : Field} {j : Json} (kept : f ∉ left) (shows : p.Shows f j) :
      (p.leaveOut left).Shows f j := by
    cases f <;> simpa [Shows, Pending.leaveOut, kept] using shows
  obtain ⟨shown, others, perm, all, foreign⟩ := shown
  refine ⟨shown, others, perm, ?_, foreign⟩
  have all := (List.forall₂_and_left _ _).mpr ⟨fun f listed => (List.mem_filter.mp listed).2, all⟩
  exact all.imp fun f m h => ⟨h.2.1, kept (of_decide_eq_true h.1) h.2.2⟩

theorem decode?_of_leaveOut (object : Derives (.element (.object members)) text)
    (names : Titled members named) {left : List Field}
    (optional : ∀ f ∈ left, f = .sequence ∨ f = .lastAttempt)
    (shown : p.ShownAmong (Field.all.filter (· ∉ left)) named) :
    decode? text = some (p.leaveOut left) := by
  refine (decode?_eq_some_iff object names).mpr (shown.leaveOut.describes ?_ fun f unlisted => ?_)
  · exact List.Nodup.filter _ (by decide)
  · have leftOut : f ∈ left := by simpa [Field.mem_all] using unlisted
    rcases optional f leftOut with rfl | rfl <;> simp [Omits, Pending.leaveOut, leftOut]

/-! ## Texts that are refused -/

/-- A number shows what a field holds only if it is an integer of the range, written plainly. -/
theorem Shows.in_range {f : Field} {lo hi : Int} {literal : Bytes}
    (shows : p.Shows f (.number literal)) (range : f.range? = some (lo, hi)) :
    ∃ i, lo ≤ i ∧ i ≤ hi ∧ .number literal = Json.ofInt i := by
  cases f with
  | id | endpoint | payload => cases range
  | created =>
    cases range
    exact ⟨_, p.created.lo_le, p.created.le_hi, shows⟩
  | sequence =>
    cases range
    exact ⟨_, p.sequence.lo_le, p.sequence.le_hi, shows⟩
  | retries =>
    cases range
    exact ⟨_, p.retries.lo_le, p.retries.le_hi, shows⟩
  | lastAttempt =>
    cases range
    cases last : p.lastAttempt with
    | none =>
      rw [Shows, last] at shows
      cases shows
    | some t =>
      rw [Shows, last] at shows
      exact ⟨_, t.lo_le, t.le_hi, shows⟩

/-- What the text of a delivery may look like. Its members may stand in any order, with any others
among them, and `sequence` and `last_attempt_ms` may be left out. A text is refused if another field
is left out, if one occurs twice, if a number is not a plain integer of the range of its field, or
if the payload is not the base64 of any bytes. -/
theorem tolerates (object : Derives (.element (.object members)) text)
    (names : Titled members named) :
    (∀ p, ShownAmong p Field.all named →
      decode? text = some p ∧ decode? p.encode = some p) ∧
    (∀ p left, (∀ f ∈ left, f = .sequence ∨ f = .lastAttempt) →
      ShownAmong p (Field.all.filter (· ∉ left)) named →
      decode? text = some (p.leaveOut left)) ∧
    (∀ f : Field, f ≠ .sequence → f ≠ .lastAttempt → f.name ∉ named.map Prod.fst →
      decode? text = none) ∧
    (∀ f : Field, 2 ≤ (named.map Prod.fst).count f.name → decode? text = none) ∧
    (∀ (f : Field) (lo hi : Int) (literal : Bytes), f.range? = some (lo, hi) →
      (f.name, .number literal) ∈ named →
      (∀ i, lo ≤ i → i ≤ hi → .number literal ≠ Json.ofInt i) → decode? text = none) ∧
    ∀ j, (Field.payload.name, j) ∈ named →
      (∀ raw b, j = .string raw → ¬Unescapes raw (Text.Base64.encode b)) →
      decode? text = none := by
  have refused (undescribed : ∀ p : Pending, ¬p.Describes named) : decode? text = none :=
    Option.eq_none_iff_forall_ne_some.mpr fun p read =>
      undescribed p ((decode?_eq_some_iff object names).mp read)
  refine ⟨fun p shown => ⟨?_, decode?_encode p⟩, fun p left optional => ?_,
    fun f notSequence notLast absent => ?_, fun f twice => ?_,
    fun f lo hi literal range member outside => ?_, fun j member other => ?_⟩
  · refine (decode?_eq_some_iff object names).mpr (shown.describes (by decide) fun f unlisted => ?_)
    exact absurd f.mem_all unlisted
  · exact decode?_of_leaveOut object names optional
  · refine refused fun p describes => ?_
    have omits := describes.omits f absent
    cases f <;> first | exact omits | exact absurd rfl notSequence | exact absurd rfl notLast
  · refine refused fun p describes => ?_
    have := describes.once f
    omega
  · refine refused fun p describes => ?_
    obtain ⟨i, least, most, same⟩ := (describes.shows f _ member).in_range range
    exact outside i least most same
  · refine refused fun p describes => ?_
    obtain ⟨raw, same, unescapes⟩ := describes.shows .payload j member
    exact other raw p.payload same unescapes

/-- A text with white space and an escape, with a member that has the name of no field, and with the
fields in reverse. Two of them are left out. -/
def mixed : Bytes := word
  "\x7b \"x\": [1e3, \x7b\x7d], \"retry_count\": 3, \"created_at_ms\": -5,
    \"payload\": \"aGk=\", \"endpoint\": \"logs\", \"\\u0069d\": \"a\" \x7d"

def mixedMembers : List (Bytes × Json) :=
  [(word "x", .array [.number (word "1e3"), .object []]), (word "retry_count", .number (word "3")),
    (word "created_at_ms", .number (word "-5")), (word "payload", .string (word "aGk=")),
    (word "endpoint", .string (word "logs")), (word "\\u0069d", .string (word "a"))]

def mixedFields : List (String × Json) :=
  [("id", .string (word "a")), ("endpoint", .string (word "logs")),
    ("payload", .string (word "aGk=")), ("created_at_ms", .number (word "-5")),
    ("retry_count", .number (word "3"))]

def mixedOther : String × Json := ("x", .array [.number (word "1e3"), .object []])

theorem tolerates_of_mixed : decode? mixed =
    some ⟨"a", .logs, [0x68, 0x69], ⟨-5, by decide, by decide⟩, 0, 3, none⟩ := by
  let p : Pending := ⟨"a", .logs, [0x68, 0x69], ⟨-5, by decide, by decide⟩, 7, 3, some 9⟩
  have object : Derives (.element (.object mixedMembers)) mixed :=
    Json.read?_eq_some_iff.mp (by cbv)
  have names : Titled mixedMembers (mixedFields ++ [mixedOther]).reverse :=
    Json.named?_eq_some_iff.mp (by cbv)
  have endpoint : p.Shows .endpoint (.string (word "logs")) :=
    (Json.asOneOf?_eq_some_iff (Endpoint.ofName?_name _)).mp (by cbv)
  have all : p.ShowsAll [.id, .endpoint, .payload, .created, .retries] mixedFields :=
    .cons ⟨rfl, Json.asString?_eq_some_iff.mp (by cbv)⟩ <| .cons ⟨rfl, endpoint⟩ <|
      .cons ⟨rfl, payload?_eq_some_iff.mp (by cbv)⟩ <| .cons ⟨rfl, by cbv⟩ <|
      .cons ⟨rfl, by cbv⟩ .nil
  have foreign : ∀ m ∈ [mixedOther], ∀ f : Field, m.1 ≠ f.name := by
    rintro m member f
    obtain rfl := List.mem_singleton.mp member
    cases f <;> decide
  exact (tolerates object names).2.1 p [.sequence, .lastAttempt] (by decide)
    ⟨mixedFields, [mixedOther], List.reverse_perm _, all, foreign⟩

end Outbox.Pending
