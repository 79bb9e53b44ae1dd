import Outbox.Proofs.JsonString
import Outbox.Proofs.Records
import Outbox.Url

/-! # Segments of paths

A path is read piece by piece, and a piece that is none of the dots leads to itself. So what is
appended to the text of a path goes on with its last piece, and a slash at the end of it leads into
what the last piece names.
-/

namespace Outbox

namespace Url

/-! ## Fields -/

section

variable {p q : Char → Bool} {cs t : List Char}

theorem fields_congr (same : ∀ c ∈ cs, p c = q c) : fields p cs = fields q cs := by
  induction cs with
  | nil => rfl
  | cons c cs ih =>
    rw [fields, fields, same c List.mem_cons_self,
      ih fun d member => same d (List.mem_cons_of_mem _ member)]

theorem fields_of_free (free : ∀ c ∈ t, p c = false) : fields p t = [t] := by
  induction t with
  | nil => rfl
  | cons c t ih =>
    rw [fields, free c List.mem_cons_self,
      ih fun d member => free d (List.mem_cons_of_mem _ member)]
    rfl

/-- What is appended to a text goes on with its last field. -/
theorem fields_append (p : Char → Bool) (cs : List Char) :
    ∃ fs f, fields p cs = fs ++ [f] ∧
      ∀ t, ∃ g gs, fields p t = g :: gs ∧ fields p (cs ++ t) = fs ++ (f ++ g) :: gs := by
  induction cs with
  | nil =>
    refine ⟨[], [], rfl, fun t => ?_⟩
    obtain ⟨g, gs, shape⟩ := List.exists_cons_of_ne_nil (fields_ne_nil p t)
    exact ⟨g, gs, shape, shape⟩
  | cons c cs ih =>
    obtain ⟨fs, f, shape, goes_on⟩ := ih
    by_cases parts : p c = true
    · refine ⟨[] :: fs, f, by rw [fields, if_pos parts, shape]; rfl, fun t => ?_⟩
      obtain ⟨g, gs, first, whole⟩ := goes_on t
      exact ⟨g, gs, first, by rw [List.cons_append, fields, if_pos parts, whole]; rfl⟩
    · cases fs with
      | nil =>
        refine ⟨[], c :: f, by rw [fields, if_neg parts, shape]; rfl, fun t => ?_⟩
        obtain ⟨g, gs, first, whole⟩ := goes_on t
        exact ⟨g, gs, first, by rw [List.cons_append, fields, if_neg parts, whole]; rfl⟩
      | cons h fs =>
        refine ⟨(c :: h) :: fs, f, by rw [fields, if_neg parts, shape]; rfl, fun t => ?_⟩
        obtain ⟨g, gs, first, whole⟩ := goes_on t
        exact ⟨g, gs, first, by rw [List.cons_append, fields, if_neg parts, whole]; rfl⟩

theorem not_mem_fields {f : List Char} {c : Char} (listed : f ∈ fields p cs) (member : c ∈ f) :
    p c = false := by
  induction cs generalizing f with
  | nil =>
    rw [fields, List.mem_singleton] at listed
    subst listed
    cases member
  | cons d cs ih =>
    rw [fields] at listed
    split at listed
    case isTrue =>
      rcases List.mem_cons.mp listed with rfl | later
      · cases member
      · exact ih later member
    case isFalse other =>
      split at listed
      case h_1 none_ => exact absurd none_ (fields_ne_nil p cs)
      case h_2 g gs shape =>
        rcases List.mem_cons.mp listed with rfl | later
        · rcases List.mem_cons.mp member with rfl | inside
          · simpa using other
          · exact ih (shape ▸ List.mem_cons_self) inside
        · exact ih (shape ▸ List.mem_cons_of_mem _ later) member

theorem mem_fields {c : Char} (other : p c = false) (member : c ∈ cs) :
    ∃ f ∈ fields p cs, c ∈ f := by
  induction cs with
  | nil => cases member
  | cons d cs ih =>
    rw [fields]
    rcases List.mem_cons.mp member with rfl | later
    · rw [if_neg (by simp [other])]
      split
      · exact ⟨_, List.mem_cons_self, List.mem_cons_self⟩
      · exact ⟨_, List.mem_cons_self, List.mem_cons_self⟩
    · obtain ⟨f, listed, inside⟩ := ih later
      split
      · exact ⟨f, List.mem_cons_of_mem _ listed, inside⟩
      · split
        case h_1 none_ => exact absurd none_ (fields_ne_nil p cs)
        case h_2 g gs shape =>
          rw [shape] at listed
          rcases List.mem_cons.mp listed with rfl | further
          · exact ⟨_, List.mem_cons_self, List.mem_cons_of_mem _ inside⟩
          · exact ⟨f, List.mem_cons_of_mem _ further, inside⟩

/-- The last field is empty if the text ends with a separator. -/
theorem fields_concat {s : Char} (parts : p s = true) (cs : List Char) :
    fields p (cs ++ [s]) = fields p cs ++ [[]] := by
  obtain ⟨fs, f, shape, goes_on⟩ := fields_append p cs
  obtain ⟨g, gs, first, whole⟩ := goes_on [s]
  rw [fields, if_pos parts] at first
  cases first
  rw [whole, shape]
  simp [fields]

end

/-! ## Segments -/

namespace Path

theorem ofSegments_append (ss ts : List String) :
    ofSegments (ss ++ ts) = ofSegments ss ++ ofSegments ts := by
  induction ss with
  | nil => simp [ofSegments]
  | cons s ss ih =>
    simp only [ofSegments, List.cons_append, List.foldr_cons] at ih ⊢
    rw [ih]
    simp only [String.append_assoc]

theorem ofSegments_concat (ss : List String) (s : String) :
    ofSegments (ss ++ [s]) = ofSegments ss ++ "/" ++ s := by
  rw [ofSegments_append]
  simp [ofSegments, String.append_assoc]

/-- The segments above what follows a segment; all are in reverse. -/
def climb (above : List String) (s : String) : List String :=
  if isDots s then parent above else if isDot s then above else s :: above

/-- The segment only leads somewhere else. -/
def leads (s : String) : Bool := isDots s || isDot s

theorem resolve_concat (above ps : List String) (last : String) :
    resolve false above (ps ++ [last]) =
      (climb (ps.foldl climb above) last).reverse ++ if leads last then [""] else [] := by
  induction ps generalizing above with
  | nil =>
    simp only [List.nil_append, List.foldl_nil, resolve, climb, leads]
    by_cases dots : isDots last = true
    · simp [dots]
    · by_cases dot : isDot last = true <;> simp [dots, dot]
  | cons s ps ih =>
    have more : ps ++ [last] ≠ [] := by simp
    rw [List.cons_append, List.foldl_cons, ← ih, resolve, climb]
    rw [if_neg more, if_neg more]
    split
    · rfl
    · split <;> rfl

theorem climb_of_stays {s : String} (stays : leads s = false) (above : List String) :
    climb above s = s :: above := by
  have parts : isDots s = false ∧ isDot s = false := by
    simpa [leads] using stays
  rw [climb, parts.1, parts.2]
  rfl

/-- Nothing leads deeper but a name. -/
theorem length_climb_le {s : String} (leads_ : leads s = true) (above : List String) :
    (ofSegments (climb above s).reverse).length ≤ (ofSegments above.reverse).length := by
  have up (above : List String) :
      (ofSegments (parent above).reverse).length ≤ (ofSegments above.reverse).length := by
    cases above with
    | nil => exact Nat.le_refl _
    | cons s rest =>
      unfold parent
      dsimp only
      split
      · exact Nat.le_refl _
      · rw [List.reverse_cons, ofSegments_append, String.length_append]
        omega
  unfold climb
  split
  · exact up above
  · split
    · exact Nat.le_refl _
    · simp_all [leads]

theorem leads_empty : leads "" = false := by decide

/-- A slash at the end leads into the folder. -/
theorem resolve_folder (above ps : List String) :
    resolve false above (ps ++ [""]) = (ps.foldl climb above).reverse ++ [""] := by
  rw [resolve_concat, leads_empty, climb_of_stays leads_empty]
  simp

theorem text_folder (ps : List String) :
    ofSegments (resolve false [] (ps ++ [""])) = ofSegments (ps.foldl climb []).reverse ++ "/" := by
  rw [resolve_folder, ofSegments_concat]
  simp

/-- A segment that leads to itself. -/
theorem resolve_stay {last : String} (stays : leads last = false) (ps : List String) :
    ofSegments (resolve false [] (ps ++ [last])) =
      ofSegments (ps.foldl climb []).reverse ++ "/" ++ last := by
  rw [resolve_concat, stays, if_neg Bool.false_ne_true, List.append_nil, climb_of_stays stays]
  simp [ofSegments_concat]

theorem mem_resolve {above ps : List String} {s : String} (listed : s ∈ resolve false above ps) :
    s = "" ∨ s ∈ above ∨ s ∈ ps := by
  have mem_parent {above : List String} (found : s ∈ parent above) : s ∈ above := by
    unfold parent at found
    grind
  induction ps generalizing above with
  | nil => exact .inr (.inl (List.mem_reverse.mp listed))
  | cons p ps ih =>
    rw [resolve] at listed
    split at listed
    · rcases ih listed with none_ | found | later
      · exact .inl none_
      · grind
      · exact .inr (.inr (List.mem_cons_of_mem _ later))
    · split at listed <;> rcases ih listed with none_ | found | later <;> grind

theorem resolve_ne_nil {above ps : List String} (some_ : ps ≠ []) :
    resolve false above ps ≠ [] := by
  obtain ⟨init, last, rfl⟩ := List.eq_nil_or_concat ps |>.resolve_left some_
  rw [List.concat_eq_append, resolve_concat]
  cases leads_ : leads last with
  | true => simp
  | false => simp [climb_of_stays leads_]

/-! ## Pieces of a path -/

/-- A text as it stands in a path. -/
def written (cs : List Char) : String := String.ofList (escape isEscapedInPath cs)

theorem escape_append (p : Char → Bool) (cs ds : List Char) :
    escape p (cs ++ ds) = escape p cs ++ escape p ds := List.flatMap_append

theorem escape_ne_nil {p : Char → Bool} {cs : List Char} (some_ : cs ≠ []) : escape p cs ≠ [] := by
  obtain ⟨c, cs, rfl⟩ := List.exists_cons_of_ne_nil some_
  intro none_
  rw [escape, List.flatMap_cons, List.append_eq_nil_iff] at none_
  replace none_ := none_.1
  split at none_
  · have bytes : Bytes.ofString (String.singleton c) = String.utf8EncodeChar c :=
      (Bytes.ofString_ofList [c]).trans (List.flatMap_singleton _ _)
    obtain ⟨b, rest, first⟩ :=
      List.exists_cons_of_ne_nil (String.utf8EncodeChar_ne_nil (c := c))
    rw [bytes, first, List.flatMap_cons] at none_
    cases none_
  · cases none_

theorem slash_not_mem_written {cs : List Char} (free : '/' ∉ cs) : '/' ∉ (written cs).toList := by
  have digits : ∀ n : Fin 16, '/' ≠ Text.Hex.upperDigit n.val := by decide
  rw [written, String.toList_ofList, escape, List.mem_flatMap]
  rintro ⟨c, member, found⟩
  split at found
  · obtain ⟨b, -, digit⟩ := List.mem_flatMap.mp found
    have bound := b.toNat_lt
    simp only [escapeByte, List.mem_cons, List.not_mem_nil, or_false] at digit
    rcases digit with percent | high | low
    · cases percent
    · exact digits ⟨b.toNat / 16, by omega⟩ high
    · exact digits ⟨b.toNat % 16, by omega⟩ low
  · exact free (List.mem_singleton.mp found ▸ member)

/-- The segments that lead somewhere else. -/
def guides : List String :=
  ["..", ".%2e", ".%2E", "%2e.", "%2E.", "%2e%2e", "%2e%2E", "%2E%2e", "%2E%2E", ".", "%2e", "%2E"]

/-- A text that ends with a blank is none of them. -/
theorem leads_written_of_blank {cs : List Char} {c : Char} (blank : c.toNat ≤ 0x20) :
    leads (written (cs ++ [c])) = false := by
  have ends : ∀ n : Fin 33, ∀ s ∈ guides,
      ¬ escape isEscapedInPath [Char.ofNat n.val] <:+ s.toList := by decide
  by_contra leads_
  have found : written (cs ++ [c]) ∈ guides := by
    simp only [leads, isDots, isDot, Bool.not_eq_false, Bool.or_eq_true, List.contains_iff_mem]
      at leads_
    simpa only [guides, List.mem_cons, List.not_mem_nil, or_false, or_assoc] using leads_
  refine ends ⟨c.toNat, by omega⟩ _ found ?_
  rw [Char.ofNat_toNat, written, String.toList_ofList, escape_append]
  exact List.suffix_append _ _

variable {p : Char → Bool} {slash : Char}

/-- The pieces of a text when something and a slash are appended to it. -/
theorem pieces_append (parts : p slash = true) (cs : List Char) :
    ∃ ps f, (∀ c ∈ f, p c = false) ∧ pieces p cs = ps ++ [written f] ∧
      (f = [] ↔ ∀ c ∈ cs.getLast?, p c = true) ∧
      ∀ t, (∀ c ∈ t, p c = false) →
        pieces p (cs ++ t ++ [slash]) = ps ++ [written (f ++ t)] ++ [""] := by
  obtain ⟨fs, f, shape, goes_on⟩ := fields_append p cs
  refine ⟨fs.map written, f, ?_, ?_, ?_, ?_⟩
  · exact fun c => not_mem_fields (shape ▸ List.mem_append_right _ List.mem_cons_self)
  · rw [pieces, shape, List.map_append]
    rfl
  · rcases List.eq_nil_or_concat cs with rfl | ⟨init, c, rfl⟩
    · have empty : fs ++ [f] = [] ++ [[]] := shape.symm
      simpa using (List.append_inj' empty rfl).2
    · rw [List.concat_eq_append] at shape ⊢
      by_cases ends : p c = true
      · rw [fields_concat ends] at shape
        simpa [ends] using (List.append_inj' shape rfl).2.symm
      · obtain ⟨gs, g, -, goes_on⟩ := fields_append p init
        obtain ⟨h, hs, first, whole⟩ := goes_on [c]
        rw [fields_of_free (by simpa using ends)] at first
        cases first
        rw [shape] at whole
        have last := (List.append_inj' whole rfl).2
        simp only [List.cons.injEq, and_true] at last
        simp [last, ends]
  · intro t free
    obtain ⟨g, gs, first, whole⟩ := goes_on (t ++ [slash])
    rw [fields_concat parts, fields_of_free free] at first
    cases first
    rw [List.append_assoc, pieces, whole]
    simp [written, escape]

end Path

end Url

end Outbox
