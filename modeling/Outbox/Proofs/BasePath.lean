import Outbox.Proofs.Addresses
import Outbox.Url.Collector

/-! # Below the base

The endpoints of a collector lie below the address that its text gives, on the same host and port.
But the text becomes that of a folder by a slash at its very end, and that slash ends the path only
if nothing stands between: no query or fragment, no blanks that would be stripped from the end, and
no slash that it would double.
-/

namespace Outbox

/-! ## Folders -/

namespace Collector

open Url

theorem asFolder_slash (s : String) : asFolder (s ++ "/") = s ++ "/" := by
  simp [asFolder]

theorem asFolder_of_ne {s : String} (other : s.toList.getLast? ≠ some '/') :
    asFolder s = s ++ "/" := if_neg other

theorem length_asFolder_le (s : String) : (asFolder s).length ≤ s.length + 1 := by
  unfold asFolder
  split
  · omega
  · rw [String.length_append]
    exact Nat.le_refl _

variable {ps : List String} {last more : String}

/-- A slash after a name leads into the folder of this name. -/
theorem asFolder_resolve (some_ : last.toList ≠ []) (free : '/' ∉ last.toList) (ps : List String) :
    asFolder (Path.ofSegments (Path.resolve false [] (ps ++ [last]))) =
      Path.ofSegments (Path.resolve false [] (ps ++ [last] ++ [""])) := by
  rw [Path.text_folder, List.foldl_append, List.foldl_cons, List.foldl_nil]
  by_cases leads : Path.leads last = true
  · rw [Path.resolve_concat, leads, if_pos rfl, Path.ofSegments_concat, String.append_empty,
      asFolder_slash]
  · have stays : Path.leads last = false := by simpa using leads
    rw [Path.resolve_stay stays, Path.climb_of_stays stays, asFolder_of_ne]
    · simp [Path.ofSegments_concat]
    · intro ends
      rw [String.toList_append, List.getLast?_append_of_ne_nil _ some_] at ends
      exact free (List.mem_of_getLast? ends)

theorem length_asFolder_resolve_le (ps : List String) (last : String) :
    (asFolder (Path.ofSegments (Path.resolve false [] (ps ++ [last])))).length ≤
      (Path.ofSegments (ps.foldl Path.climb []).reverse).length + last.length + 2 := by
  by_cases leads : Path.leads last = true
  · have above := Path.length_climb_le leads (ps.foldl Path.climb [])
    rw [Path.resolve_concat, leads, if_pos rfl, Path.ofSegments_concat, String.append_empty,
      asFolder_slash, String.length_append]
    have : "/".length = 1 := rfl
    omega
  · rw [Path.resolve_stay (by simpa using leads)]
    refine Nat.le_trans (length_asFolder_le _) ?_
    rw [String.length_append, String.length_append]
    have : "/".length = 1 := rfl
    omega

/-- If more stands before the slash, another folder is meant. -/
theorem asFolder_resolve_ne_of_longer (longer : last.length < more.length)
    (stays : Path.leads more = false) (ps : List String) :
    asFolder (Path.ofSegments (Path.resolve false [] (ps ++ [last]))) ≠
      Path.ofSegments (Path.resolve false [] (ps ++ [more] ++ [""])) := by
  intro same
  have short := length_asFolder_resolve_le ps last
  rw [same, Path.text_folder, List.foldl_append, List.foldl_cons, List.foldl_nil,
    Path.climb_of_stays stays, List.reverse_cons, Path.ofSegments_concat] at short
  simp only [String.length_append] at short
  have : "/".length = 1 := rfl
  omega

/-- A second slash makes another folder. -/
theorem asFolder_resolve_ne_of_slash (ps : List String) :
    asFolder (Path.ofSegments (Path.resolve false [] (ps ++ [""]))) ≠
      Path.ofSegments (Path.resolve false [] (ps ++ [""] ++ [""])) := by
  intro same
  have sizes := congrArg String.length same
  rw [Path.text_folder, asFolder_slash, Path.text_folder, List.foldl_append, List.foldl_cons,
    List.foldl_nil, Path.climb_of_stays Path.leads_empty, List.reverse_cons,
    Path.ofSegments_concat] at sizes
  simp only [String.length_append] at sizes
  have : "/".length = 1 := rfl
  omega

/-- What takes the place of the last segment lies in the folder of a path only if that is one. -/
theorem dropLast_eq_asFolder_iff {segments : List String} (some_ : segments ≠ [])
    (free : ∀ s ∈ segments, '/' ∉ s.toList) :
    Path.ofSegments segments.dropLast ++ "/" = asFolder (Path.ofSegments segments) ↔
      (Path.ofSegments segments).toList.getLast? = some '/' := by
  obtain ⟨init, last, rfl⟩ := (List.eq_nil_or_concat segments).resolve_left some_
  rw [List.concat_eq_append] at free ⊢
  rw [List.dropLast_concat, Path.ofSegments_concat]
  constructor
  · intro same
    by_contra other
    rw [asFolder_of_ne other] at same
    have sizes := congrArg String.length same
    simp only [String.length_append] at sizes
    have : "/".length = 1 := rfl
    omega
  · intro ends
    have none_ : last.toList = [] := by
      by_contra some_
      rw [String.toList_append, List.getLast?_append_of_ne_nil _ some_] at ends
      exact free last (by simp) (List.mem_of_getLast? ends)
    rw [String.toList_eq_nil_iff.mp none_, String.append_empty, asFolder_slash]

/-! ## Endpoints -/

theorem pieces_path (scheme : String) (e : Endpoint) :
    Path.pieces (isSlash scheme) e.path.toList = ["v2", e.name] := by
  have straight : ∀ c ∈ e.path.toList, isSlash scheme c = (c == '/') := by
    have other : '\\' ∉ e.path.toList := by cases e <;> decide
    intro c member
    have plain : (c == '\\') = false := beq_eq_false_iff_ne.mpr (ne_of_mem_of_not_mem member other)
    rw [isSlash, plain, Bool.and_false, Bool.or_false]
  rw [Path.pieces, fields_congr straight]
  cases e <;> decide

theorem resolve_path (above : List String) (e : Endpoint) :
    Path.resolve false above ["v2", e.name] = above.reverse ++ ["v2", e.name] := by
  have stays : Path.leads e.name = false := by cases e <;> decide
  rw [show ["v2", e.name] = ["v2"] ++ [e.name] from rfl, Path.resolve_concat, stays,
    Path.climb_of_stays stays, List.foldl_cons, List.foldl_nil,
    Path.climb_of_stays (show Path.leads "v2" = false by decide)]
  simp

/-- An endpoint takes the place of the last segment. -/
theorem url_eq {c : Collector} {segments : List String} (web : isWeb c.base.scheme = true)
    (path : c.base.path = .segments segments) (e : Endpoint) :
    c.url e = .ok { c.base with path := .segments (segments.dropLast ++ ["v2", e.name]) } := by
  rw [url, Url.resolve, path]
  simp only [isFile_of_isWeb web, Path.folder, Bool.false_and, Bool.false_eq_true, if_false,
    pieces_path, resolve_path, List.reverse_reverse]

theorem text_path (segments : List String) (e : Endpoint) :
    Path.ofSegments (segments ++ ["v2", e.name]) = Path.ofSegments segments ++ "/" ++ e.path := by
  have versions : "/" ++ e.path = "/v2" ++ ("/" ++ e.name) := by
    rw [Endpoint.path, ← String.append_assoc, ← String.append_assoc]
    rfl
  rw [Path.ofSegments_append, String.append_assoc, versions]
  simp [Path.ofSegments, ← String.append_assoc]

theorem text_dropLast (segments : List String) :
    Path.ofSegments (segments ++ [""]).dropLast ++ "/" = Path.ofSegments (segments ++ [""]) := by
  rw [List.dropLast_concat, Path.ofSegments_concat, String.append_empty]

theorem dropLast_pathOf_iff {scheme : String} (web : isWeb scheme = true) (cs : List Char) :
    Path.ofSegments (pathOf scheme cs).dropLast ++ "/" =
        asFolder (Path.ofSegments (pathOf scheme cs)) ↔
      (Path.ofSegments (pathOf scheme cs)).toList.getLast? = some '/' :=
  dropLast_eq_asFolder_iff (pathOf_ne_nil web cs) fun _ => slash_not_mem_pathOf web

theorem any_eq {text : String} {front rest : List Char} (whole : tidy text = front ++ rest)
    (unmarked : front.any isPathEnd = false) : text.toList.any isPathEnd = rest.any isPathEnd := by
  rw [← any_tidy, whole, List.any_append, unmarked, Bool.false_or]

theorem eq_slash_of_getLast? {text : String} (ends : text.toList.getLast? = some '/') :
    ∃ s, text = s ++ "/" := by
  obtain ⟨init, whole⟩ := List.getLast?_eq_some_iff.mp ends
  refine ⟨String.ofList init, ?_⟩
  rw [← String.toList_inj, String.toList_append, String.toList_ofList, whole]
  rfl

/-- The slash that makes a text that of a folder ends the path of its address. -/
def endsPath (text : String) (own : Url) : Prop :=
  if text.toList.any isPathEnd then own.path.text.toList.getLast? = some '/'
  else text.toList.getLast? = some '/' ∨
    ∀ d ∈ (text.toList.filter isKept).getLast?, ¬ d.toNat ≤ 0x20 ∧ d ≠ '/' ∧ d ≠ '\\'

end Collector

namespace Url.GoesOn

open Collector (asFolder)

variable {own base : Url} {a b t : List Char}

theorem any_eq (goes_on : GoesOn own base a b t) : (a ++ b).any isPathEnd = b.any isPathEnd := by
  have free : a.any isPathEnd = false := by
    rw [List.any_eq_false]
    intro d member
    simp [(isEnd_eq_false_iff.mp (goes_on.free d member)).2]
  rw [List.any_append, free, Bool.false_or]

theorem any_after (goes_on : GoesOn own base a b t) (free : b.any isPathEnd = false) :
    (b ++ t ++ ['/']).any isPathEnd = false := by
  have blank : t.any isPathEnd = false := by
    rw [List.any_eq_false]
    intro d member
    simp [not_isPathEnd_of_isLow (goes_on.blank d member)]
  rw [List.any_append, List.any_append, free, blank]
  rfl

/-- With no mark before the slash, the blanks become a part of the last segment. -/
theorem paths (goes_on : GoesOn own base a b t) (free : b.any isPathEnd = false)
    (some_ : b ≠ []) :
    ∃ ps f, (∀ d ∈ f, isSlash own.scheme d = false) ∧
      (f = [] ↔ ∀ d ∈ (a ++ b).getLast?, isSlash own.scheme d = true) ∧
      pathOf own.scheme b = Path.resolve false [] (ps ++ [Path.written f]) ∧
      pathOf own.scheme (b ++ t ++ ['/']) =
        Path.resolve false [] (ps ++ [Path.written (f ++ t)] ++ [""]) := by
  have unmarked := goes_on.any_after free
  have ends := goes_on.ends
  cases b with
  | nil => exact absurd rfl some_
  | cons c b =>
    have slash : isSlash own.scheme c = true := by
      have other : isPathEnd c = false := by
        rw [List.any_cons, Bool.or_eq_false_iff] at free
        exact free.1
      simpa [isEnd, other] using ends c rfl
    have blank : ∀ d ∈ t, isSlash own.scheme d = false := fun d member =>
      (isEnd_eq_false_iff.mp (not_isEnd_of_isLow goes_on.web (goes_on.blank d member))).1
    obtain ⟨ps, f, plain, before, empty, after⟩ := Path.pieces_append (isSlash_slash own.scheme) b
    rw [List.cons_append, List.cons_append] at unmarked ⊢
    refine ⟨ps, f, plain, empty.trans ?_, ?_, ?_⟩
    · rw [List.getLast?_append_of_ne_nil _ some_, List.getLast?_cons]
      cases b.getLast? <;> simp [slash]
    · rw [pathOf_cons goes_on.web slash free, before]
    · rw [pathOf_cons goes_on.web slash unmarked, after t blank]

/-- With no mark before it, the slash is one of the path. -/
theorem pathOf_after (goes_on : GoesOn own base a b t) (free : b.any isPathEnd = false) :
    ∃ segments, pathOf own.scheme (b ++ t ++ ['/']) = segments ++ [""] := by
  by_cases none_ : b = []
  · rw [goes_on.inPath none_, none_, List.nil_append, List.nil_append,
      pathOf_cons goes_on.web (isSlash_slash own.scheme) rfl]
    exact ⟨[], rfl⟩
  · obtain ⟨ps, f, -, -, -, after⟩ := goes_on.paths free none_
    exact ⟨_, after.trans (Path.resolve_folder _ _)⟩

/-- The last segment of the address with the slash leads to the folder that the path of the address
without it names, if nothing but a name stands before the slash. -/
theorem folder_iff (goes_on : GoesOn own base a b t) (free : b.any isPathEnd = false) :
    Path.ofSegments (pathOf own.scheme (b ++ t ++ ['/'])) =
        asFolder (Path.ofSegments (pathOf own.scheme b)) ↔
      t = [] ∧ ∀ d ∈ (a ++ b).getLast?, isSlash own.scheme d = false := by
  by_cases none_ : b = []
  · have last : ∀ d ∈ a.getLast?, isSlash own.scheme d = false := fun d last =>
      (isEnd_eq_false_iff.mp (goes_on.free d (List.mem_of_getLast? last))).1
    have root : pathOf own.scheme [] = [""] := by
      rw [pathOf, isFile_of_isWeb goes_on.web]
      rfl
    have below : pathOf own.scheme ['/'] = [""] :=
      pathOf_cons goes_on.web (isSlash_slash own.scheme) rfl
    rw [goes_on.inPath none_, none_, List.append_nil, List.append_nil, List.nil_append, root, below]
    exact iff_of_true (by decide) ⟨rfl, last⟩
  · obtain ⟨ps, f, plain, empty, before, after⟩ := goes_on.paths free none_
    rw [before, after]
    obtain ⟨front, d, last⟩ := (List.eq_nil_or_concat (a ++ b)).resolve_left (by simp [none_])
    rw [last, List.concat_eq_append, List.getLast?_concat] at empty ⊢
    simp only [Option.mem_some_iff, forall_eq'] at empty ⊢
    rcases List.eq_nil_or_concat t with rfl | ⟨init, c, rfl⟩
    · rw [List.append_nil]
      by_cases named : f = []
      · rw [named]
        refine iff_of_false (Ne.symm (Collector.asFolder_resolve_ne_of_slash ps)) ?_
        simp [empty.mp named]
      · have free_ : '/' ∉ f := fun member => by simpa [isSlash] using plain '/' member
        have some_ : (Path.written f).toList ≠ [] := by
          rw [Path.written, String.toList_ofList]
          exact Path.escape_ne_nil named
        refine iff_of_true ?_ ⟨rfl, by simpa using fun slash => named (empty.mpr slash)⟩
        exact (Collector.asFolder_resolve some_ (Path.slash_not_mem_written free_) ps).symm
    · rw [List.concat_eq_append]
      refine iff_of_false (Ne.symm ?_) (by simp)
      apply Collector.asFolder_resolve_ne_of_longer
      · rw [Path.written, Path.written, String.length_ofList, String.length_ofList,
          Path.escape_append, List.length_append]
        have longer : 0 < (escape isEscapedInPath (init ++ [c])).length :=
          List.length_pos_iff.mpr (Path.escape_ne_nil (by simp))
        omega
      · rw [← List.append_assoc]
        exact Path.leads_written_of_blank (goes_on.blank c (by simp))

/-- Blanks stand before the slash if the last of what stands there is one. -/
theorem last_iff (goes_on : GoesOn own base a b t)
    (high : ∀ d ∈ (a ++ b).getLast?, ¬ d.toNat ≤ 0x20) :
    (∀ d ∈ (a ++ b ++ t).getLast?, ¬ d.toNat ≤ 0x20 ∧ d ≠ '/' ∧ d ≠ '\\') ↔
      t = [] ∧ ∀ d ∈ (a ++ b).getLast?, isSlash own.scheme d = false := by
  have slash (d : Char) : isSlash own.scheme d = false ↔ d ≠ '/' ∧ d ≠ '\\' := by
    simp [isSlash_of_isWeb goes_on.web]
  rcases List.eq_nil_or_concat t with rfl | ⟨init, c, rfl⟩
  · simp only [List.append_nil, slash, true_and]
    exact forall₂_congr fun d last => and_iff_right (high d last)
  · rw [List.concat_eq_append]
    refine iff_of_false (fun all => ?_) (by simp)
    have last := all c (by rw [← List.append_assoc, List.getLast?_concat]; rfl)
    exact last.1 (goes_on.blank c (by simp))

end Url.GoesOn

namespace Collector

open Url

/-- An endpoint is on the host of the base, and its path is below that of the base exactly if the
slash ends the path. -/
theorem below_base_iff {text : String} {c : Collector} (read : ofBase text = .ok c)
    (web : isWeb c.base.scheme = true) (e : Endpoint) :
    ∃ own u, Url.parse text = .ok own ∧ c.url e = .ok u ∧ u = { own with path := u.path } ∧
      (u.path.text = asFolder own.path.text ++ e.path ↔ endsPath text own) := by
  unfold ofBase at read
  split at read
  case h_2 => cases read
  case h_1 base parsed =>
    cases read
    by_cases folder : text.toList.getLast? = some '/'
    · -- the text is the one that the collector takes
      obtain ⟨s, rfl⟩ := eq_slash_of_getLast? folder
      rw [asFolder_slash] at parsed
      obtain ⟨front, a, b, t, own, whole, unmarked, -, -, -, -, goes_on⟩ := parse_slash parsed web
      have marks : (s ++ "/").toList.any isPathEnd = b.any isPathEnd := by
        rw [String.toList_append, List.any_append, any_eq whole unmarked, goes_on.any_eq]
        exact Bool.or_false _
      have path : base.path = .segments (pathOf own.scheme (b ++ t ++ ['/'])) := by
        rw [goes_on.after]
      refine ⟨base, _, parsed, url_eq web path e, rfl, ?_⟩
      rw [path, endsPath, marks, Path.text, Path.text, text_path, String.append_left_inj, path]
      split
      case isTrue => exact dropLast_pathOf_iff goes_on.web _
      case isFalse free =>
        obtain ⟨segments, ends⟩ := goes_on.pathOf_after (by simpa using free)
        refine iff_of_true ?_ (.inl folder)
        rw [ends, text_dropLast, Path.ofSegments_concat, String.append_empty, asFolder_slash]
    · rw [asFolder_of_ne folder] at parsed
      obtain ⟨front, a, b, t, own, whole, unmarked, -, last, high, parsed', goes_on⟩ :=
        parse_slash parsed web
      have marks : text.toList.any isPathEnd = b.any isPathEnd := by
        rw [any_eq whole unmarked, goes_on.any_eq]
      have path : base.path = .segments (pathOf own.scheme (b ++ t ++ ['/'])) := by
        rw [goes_on.after]
      refine ⟨own, _, parsed', url_eq web path e, by rw [goes_on.after], ?_⟩
      rw [endsPath, marks, goes_on.before, Path.text, Path.text, text_path, String.append_left_inj]
      split
      case isTrue marked =>
        -- the slash is behind a mark, so the path is the same one
        rw [List.append_assoc, pathOf_append_of_any marked]
        exact dropLast_pathOf_iff goes_on.web b
      case isFalse free =>
        obtain ⟨segments, ends⟩ := goes_on.pathOf_after (by simpa using free)
        rw [or_iff_right folder, last, goes_on.last_iff high,
          ← goes_on.folder_iff (by simpa using free), ends, text_dropLast]

theorem below_base_iff_of_name :
    let c : Collector := ⟨⟨"https", "", "", some (.named "h"), none, .segments ["x", ""]⟩⟩
    ofBase "https://h/x" = .ok c ∧ isWeb c.base.scheme = true ∧
      ∃ own u, Url.parse "https://h/x" = .ok own ∧ c.url .logs = .ok u ∧
        u = { own with path := u.path } ∧
        (u.path.text = asFolder own.path.text ++ Endpoint.logs.path ↔ endsPath "https://h/x" own) :=
  ⟨rfl, rfl, below_base_iff rfl rfl .logs⟩

/-- The slash becomes a part of the query, and the last segment of the base is replaced. -/
theorem beside_base_of_query :
    ∃ c own u, ofBase "https://h/x?y=1" = .ok c ∧ isWeb c.base.scheme = true ∧
      Url.parse "https://h/x?y=1" = .ok own ∧ c.url .logs = .ok u ∧
      own.path.text = "/x" ∧ u.path.text = "/v2/logs" ∧
      u.path.text ≠ asFolder own.path.text ++ Endpoint.logs.path :=
  ⟨⟨⟨"https", "", "", some (.named "h"), none, .segments ["x"]⟩⟩,
    ⟨"https", "", "", some (.named "h"), none, .segments ["x"]⟩,
    ⟨"https", "", "", some (.named "h"), none, .segments ["v2", "logs"]⟩,
    rfl, rfl, rfl, rfl, rfl, rfl, by decide⟩

end Collector

end Outbox
