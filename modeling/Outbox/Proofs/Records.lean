import Outbox.Config
import Outbox.Delivery.Pending
import Outbox.Envelope.Record
import Outbox.Proofs.JsonText

/-! # Records read back

The record of a delivery, of an envelope or of a configuration holds all of it: decoding what was
encoded gives it back. Payloads of deliveries go through base64, so the first part is about its
groups of three bytes; bodies of envelopes are arrays of numbers.
-/

namespace Outbox

namespace Text.Base64

theorem value?_letter {n : Nat} (h : n < 64) : value? (letter n) = some n := by
  have all : ∀ n : Fin 64, value? (letter n.val) = some n.val := by decide
  exact all ⟨n, h⟩

theorem toUInt8_eq {n : Nat} {b : UInt8} (h : n = b.toNat) : n.toUInt8 = b := by
  rw [h]
  exact UInt8.ofNat_toNat

theorem encodeAfter_eq : ∀ (b acc : Bytes), encodeAfter acc b = acc.reverse ++ encode b
  | [], acc => by simp [encode, encodeAfter]
  | [a], acc => by simp [encode, encodeAfter]
  | [a, b], acc => by simp [encode, encodeAfter]
  | a :: b :: c :: rest, acc => by
    rw [encode, encodeAfter, encodeAfter, encodeAfter_eq rest, encodeAfter_eq rest [_, _, _, _]]
    simp

theorem encode_group (a b c : UInt8) (rest : Bytes) :
    encode (a :: b :: c :: rest) =
      letter (a.toNat / 4) :: letter (a.toNat % 4 * 16 + b.toNat / 16) ::
        letter (b.toNat % 16 * 4 + c.toNat / 64) :: letter (c.toNat % 64) :: encode rest := by
  rw [encode, encodeAfter, encodeAfter_eq]
  simp

theorem decodeAfter_encode : ∀ (b acc : Bytes),
    decodeAfter acc (encode b) = some (acc.reverse ++ b)
  | [], acc => by simp [encode, encodeAfter, decodeAfter]
  | [a], acc => by
    have bound := a.toNat_lt
    have padding : value? pad = none := by decide
    have first : (a.toNat / 4 * 4 + a.toNat % 4 * 16 / 16).toUInt8 = a := toUInt8_eq (by omega)
    have spare : a.toNat % 4 * 16 % 16 = 0 := by omega
    simp only [encode, encodeAfter, List.reverse_cons, List.reverse_nil, List.nil_append,
      List.cons_append, decodeAfter, padding, first, spare,
      value?_letter (show a.toNat / 4 < 64 by omega),
      value?_letter (show a.toNat % 4 * 16 < 64 by omega)]
    simp
  | [a, b], acc => by
    have bound := a.toNat_lt
    have bound' := b.toNat_lt
    have padding : value? pad = none := by decide
    have first : (a.toNat / 4 * 4 + (a.toNat % 4 * 16 + b.toNat / 16) / 16).toUInt8 = a :=
      toUInt8_eq (by omega)
    have second : ((a.toNat % 4 * 16 + b.toNat / 16) % 16 * 16 +
        b.toNat % 16 * 4 / 4).toUInt8 = b :=
      toUInt8_eq (by omega)
    have spare : b.toNat % 16 * 4 % 4 = 0 := by omega
    simp only [encode, encodeAfter, List.reverse_cons, List.reverse_nil, List.nil_append,
      List.cons_append, decodeAfter, padding, first, second, spare,
      value?_letter (show a.toNat / 4 < 64 by omega),
      value?_letter (show a.toNat % 4 * 16 + b.toNat / 16 < 64 by omega),
      value?_letter (show b.toNat % 16 * 4 < 64 by omega)]
    simp
  | a :: b :: c :: rest, acc => by
    have bound := a.toNat_lt
    have bound' := b.toNat_lt
    have bound'' := c.toNat_lt
    have first : (a.toNat / 4 * 4 + (a.toNat % 4 * 16 + b.toNat / 16) / 16).toUInt8 = a :=
      toUInt8_eq (by omega)
    have second : ((a.toNat % 4 * 16 + b.toNat / 16) % 16 * 16 +
        (b.toNat % 16 * 4 + c.toNat / 64) / 4).toUInt8 = b :=
      toUInt8_eq (by omega)
    have third : ((b.toNat % 16 * 4 + c.toNat / 64) % 4 * 64 + c.toNat % 64).toUInt8 = c :=
      toUInt8_eq (by omega)
    rw [encode_group, decodeAfter]
    simp only [first, second, third,
      value?_letter (show a.toNat / 4 < 64 by omega),
      value?_letter (show a.toNat % 4 * 16 + b.toNat / 16 < 64 by omega),
      value?_letter (show b.toNat % 16 * 4 + c.toNat / 64 < 64 by omega),
      value?_letter (show c.toNat % 64 < 64 by omega)]
    rw [decodeAfter_encode rest]
    simp

/-- Decoding gives back the bytes that were encoded. -/
theorem decode?_encode (b : Bytes) : decode? (encode b) = some b := by
  rw [decode?, decodeAfter_encode, List.reverse_nil, List.nil_append]

/-- Every byte of an encoded text is a letter or padding. -/
theorem mem_encode : ∀ {b : Bytes} {x : UInt8}, x ∈ encode b → x = pad ∨ ∃ n < 64, x = letter n
  | [], x, member => by simp [encode, encodeAfter] at member
  | [a], x, member => by
    have bound := a.toNat_lt
    simp only [encode, encodeAfter, List.reverse_cons, List.reverse_nil, List.nil_append,
      List.cons_append, List.mem_cons, List.not_mem_nil, or_false] at member
    rcases member with rfl | rfl | rfl | rfl
    · exact .inr ⟨_, by omega, rfl⟩
    · exact .inr ⟨_, by omega, rfl⟩
    · exact .inl rfl
    · exact .inl rfl
  | [a, b], x, member => by
    have bound := a.toNat_lt
    have bound' := b.toNat_lt
    simp only [encode, encodeAfter, List.reverse_cons, List.reverse_nil, List.nil_append,
      List.cons_append, List.mem_cons, List.not_mem_nil, or_false] at member
    rcases member with rfl | rfl | rfl | rfl
    · exact .inr ⟨_, by omega, rfl⟩
    · exact .inr ⟨_, by omega, rfl⟩
    · exact .inr ⟨_, by omega, rfl⟩
    · exact .inl rfl
  | a :: b :: c :: rest, x, member => by
    have bound := a.toNat_lt
    have bound' := b.toNat_lt
    have bound'' := c.toNat_lt
    rw [encode_group] at member
    simp only [List.mem_cons] at member
    rcases member with rfl | rfl | rfl | rfl | member
    · exact .inr ⟨_, by omega, rfl⟩
    · exact .inr ⟨_, by omega, rfl⟩
    · exact .inr ⟨_, by omega, rfl⟩
    · exact .inr ⟨_, by omega, rfl⟩
    · exact mem_encode member

/-- Letters and padding stand for themselves, in strings and as text. -/
theorem encode_plain {b : Bytes} {x : UInt8} (member : x ∈ encode b) :
    Json.escapeByte x = [x] ∧ String.utf8EncodeChar (Char.ofUInt8 x) = [x] := by
  have letters : ∀ n : Fin 64, Json.escapeByte (letter n.val) = [letter n.val] ∧
      String.utf8EncodeChar (Char.ofUInt8 (letter n.val)) = [letter n.val] := by decide
  rcases mem_encode member with rfl | ⟨n, small, rfl⟩
  · decide
  · exact letters ⟨n, small⟩

end Text.Base64

theorem Bytes.ofString_ofList (cs : List Char) :
    ofString (String.ofList cs) = cs.flatMap String.utf8EncodeChar :=
  List.toList_data_toByteArray

theorem flatMap_singleton_of_forall {α : Type} {f : α → List α} {l : List α}
    (h : ∀ a ∈ l, f a = [a]) : l.flatMap f = l := by
  induction l with
  | nil => rfl
  | cons a l ih =>
    rw [List.flatMap_cons, h a (by simp), ih fun b member => h b (List.mem_cons_of_mem _ member)]
    rfl

namespace Text.Base64

theorem escape_encode (b : Bytes) : Json.escape (encode b) = encode b :=
  flatMap_singleton_of_forall fun _ member => (encode_plain member).1

theorem exists_ofString (b : Bytes) : ∃ s, Bytes.ofString s = encode b := by
  refine ⟨String.ofList ((encode b).map Char.ofUInt8), ?_⟩
  rw [Bytes.ofString_ofList, List.flatMap_map]
  exact flatMap_singleton_of_forall fun _ member => (encode_plain member).2

end Text.Base64

/-! ## Fields -/

namespace Json

theorem written_zip {values : List Json} (written : ∀ v ∈ values, v.Written)
    (names : List String) : (record (names.zip values)).Written := by
  refine .object ?_ ?_
  · intro m member
    obtain ⟨n, _, rfl⟩ := List.mem_map.mp member
    exact ⟨_, rfl⟩
  · intro m member
    obtain ⟨n, field, rfl⟩ := List.mem_map.mp member
    exact written n.2 (List.of_mem_zip field).2

theorem written_optional {lo hi : Int} (o : Option (Ranged lo hi)) :
    (ofOption (fun t => ofInt t.val) o).Written := by
  cases o with
  | none => exact .null
  | some t => exact .number _

theorem asString?_ofString (s : String) : asString? (ofString s) = some s := text?_escape s

theorem asOneOf?_ofString {α : Type} {all : List α} {name : α → String} {a : α}
    (found : all.find? (fun b => name b == name a) = some a) :
    asOneOf? all name (ofString (name a)) = some a := by
  rw [ofString, asOneOf?, text?_escape]
  exact found

/-- An optional number is read back, where it is in its place. -/
theorem optional?_ofOption {lo hi : Int} (o : Option (Ranged lo hi)) (positional : Bool) :
    optional? asRanged? positional (some (ofOption (fun t => ofInt t.val) o)) = some o := by
  cases o with
  | none => rfl
  | some t =>
    have read := asRanged?_ofInt t
    rw [ofInt_eq] at read
    simp [ofOption, ofInt_eq, optional?, read]

/-- Bytes that are written as an array of numbers are read back. -/
theorem asBytes?_array (b : Bytes) : asBytes? (.array (b.map fun x => ofInt x.toNat)) = some b := by
  induction b with
  | nil => rfl
  | cons x b ih =>
    have bound := x.toNat_lt
    have first : asRanged? (ofInt x.toNat) = some (⟨x.toNat, by omega, by omega⟩ : Ranged 0 255) :=
      asRanged?_ofInt ⟨x.toNat, by omega, by omega⟩
    obtain ⟨ns, rest, same⟩ := Option.map_eq_some_iff.mp ih
    rw [asList?] at rest
    simp only [asBytes?, asList?, List.map_cons, List.mapM_cons, first, rest]
    simp [Ranged.toNat, ← same]

end Json

/-! ## Deliveries -/

namespace Pending

theorem payload?_encode (b : Bytes) : payload? (.string (Text.Base64.encode b)) = some b := by
  obtain ⟨s, text⟩ := Text.Base64.exists_ofString b
  have read : Json.text? (Text.Base64.encode b) = some s := by
    rw [← Text.Base64.escape_encode, ← text, Json.text?_escape]
  rw [payload?, read, Option.bind_some, text, Text.Base64.decode?_encode]

theorem endpoint_read (e : Endpoint) :
    Json.asOneOf? Endpoint.all Endpoint.name (.ofString e.name) = some e :=
  Json.asOneOf?_ofString (Endpoint.ofName?_name e)

theorem toJson_written (p : Pending) : p.toJson.Written := by
  apply Json.written_zip
  simp only [List.forall_mem_cons, List.not_mem_nil, false_imp_iff, implies_true, and_true]
  exact ⟨.string _, .string _, Text.Base64.escape_encode p.payload ▸ .string _, .number _,
    .number _, .number _, Json.written_optional _⟩

theorem ofJson?_toJson (p : Pending) : ofJson? p.toJson = some p := by
  have found := @Json.fields?_record fieldNames
    [.ofString p.id, .ofString p.endpoint.name, .string (Text.Base64.encode p.payload),
      .ofInt p.created.val, .ofInt p.sequence.val, .ofInt p.retries.val,
      .ofOption (fun t => .ofInt t.val) p.lastAttempt]
    (by decide) rfl
  rw [toJson, ofJson?, found]
  simp only [List.map_cons, List.map_nil, Json.required?, Json.defaulted?, Json.asString?_ofString,
    endpoint_read, payload?_encode, Json.asRanged?_ofInt, Json.optional?_ofOption]
  rfl

/-- Decoding gives back the delivery that was encoded. -/
theorem decode?_encode (p : Pending) : decode? p.encode = some p := by
  rw [decode?, encode, Json.read?_render p.toJson_written, Option.bind_some, ofJson?_toJson]

end Pending

/-! ## Envelopes -/

namespace Envelope

theorem toJson_written (e : Envelope) : e.toJson.Written := by
  have body : (Json.array (e.body.map fun b => .ofInt b.toNat)).Written := by
    refine .array fun j member => ?_
    obtain ⟨b, _, rfl⟩ := List.mem_map.mp member
    exact .number _
  apply Json.written_zip
  simp only [List.forall_mem_cons, List.not_mem_nil, false_imp_iff, implies_true, and_true]
  exact ⟨.string _, .string _, .number _, Json.written_optional _, .string _, body⟩

theorem ofJson?_toJson (e : Envelope) : ofJson? e.toJson = some e := by
  have found := @Json.fields?_record fieldNames
    [.ofString e.id, .ofString e.kind.name, .ofInt e.start.val,
      .ofOption (fun t => .ofInt t.val) e.ended, .ofString e.state.name,
      .array (e.body.map fun b => .ofInt b.toNat)]
    (by decide) rfl
  have kind : Json.asOneOf? Kind.all Kind.name (.ofString e.kind.name) = some e.kind :=
    Json.asOneOf?_ofString (Kind.ofName?_name e.kind)
  have state : Json.asOneOf? ProcessState.all ProcessState.name (.ofString e.state.name) =
      some e.state :=
    Json.asOneOf?_ofString (by cases e.state <;> decide)
  rw [toJson, ofJson?, found]
  simp only [List.map_cons, List.map_nil, Json.required?, Json.asString?_ofString, kind, state,
    Json.asRanged?_ofInt, Json.optional?_ofOption, Json.asBytes?_array]
  rfl

/-- Decoding gives back the envelope that was encoded. -/
theorem decode?_encode (e : Envelope) : decode? e.encode = some e := by
  rw [decode?, encode, Json.read?_render e.toJson_written, Option.bind_some, ofJson?_toJson]

end Envelope

/-! ## Configurations -/

namespace Config

theorem toJson_written (c : Config) : c.toJson.Written := by
  apply Json.written_zip
  simp only [fieldValues, List.forall_mem_cons, List.not_mem_nil, false_imp_iff, implies_true,
    and_true]
  exact ⟨.string _, .string _, .number _, .number _, .number _, .number _, .number _, .number _,
    .number _, .number _, .number _, .number _, .number _, .number _, .bool _⟩

theorem ofJson?_toJson (c : Config) : ofJson? c.toJson = some c := by
  have found := @Json.fields?_record fieldNames c.fieldValues (by decide) rfl
  rw [toJson, ofJson?, found]
  simp only [fieldValues, List.map_cons, List.map_nil, Json.defaulted?, Json.asString?_ofString,
    Json.asRanged?_ofInt, Json.asBool?]
  rfl

/-- Decoding gives back the configuration that was encoded. -/
theorem decode?_encode (c : Config) : decode? c.encode = some c := by
  rw [decode?, encode, Json.read?_render c.toJson_written, Option.bind_some, ofJson?_toJson]

end Config

/-- Deliveries, envelopes and configurations are read back from their texts as they were. -/
theorem records_read_back :
    (∀ p : Pending, Pending.decode? p.encode = some p) ∧
      (∀ e : Envelope, Envelope.decode? e.encode = some e) ∧
      ∀ c : Config, Config.decode? c.encode = some c :=
  ⟨Pending.decode?_encode, Envelope.decode?_encode, Config.decode?_encode⟩

end Outbox
