import Outbox.Proofs.Moves

/-! # What is told about the end of a delivery

One event tells that a delivery was accepted or given up, and one report says that it is given up.
They are found again in the journal by the id of the delivery, which stands in the text of the
report. Nothing else that happens looks like them.
-/

namespace Outbox

/-- The names of the reasons to give up a delivery. -/
def DropReason.names : List String :=
  ["payload_too_large", "rejected", "stale", "unsupported_endpoint"]

theorem DropReason.name_mem (reason : DropReason) : reason.name ∈ names := by
  cases reason <;> simp [name, names]

/-- The report says that the delivery with this id is given up. -/
def Report.isDropOf (id : String) (r : Report) : Bool :=
  Endpoint.all.any fun e => DropReason.names.any fun name =>
    r.message == "Dropped delivery " ++ id ++ " to " ++ e.name ++ ": " ++ name

/-- The event says that the delivery with this id has ended. -/
def Event.isEndOf (id : String) : Event → Bool
  | delivered _ i | dropped _ i _ => i == id
  | queued _ _ _ | rateLimited _ _ => false

namespace Happening

/-- The end of a delivery is told. -/
def isEndOf (id : String) : Happening → Bool
  | event e => e.isEndOf id
  | _ => false

/-- It is reported that a delivery is given up. -/
def isDropOf (id : String) : Happening → Bool
  | report r => r.isDropOf id
  | _ => false

end Happening

theorem Report.isDropOf_iff {id : String} {r : Report} :
    r.isDropOf id = true ↔ ∃ e reason, r.message = dropMessage e id reason := by
  constructor
  · intro about
    obtain ⟨e, _, about⟩ := List.any_eq_true.mp about
    obtain ⟨name, member, about⟩ := List.any_eq_true.mp about
    have message := beq_iff_eq.mp about
    have reason : ∃ reason : DropReason, reason.name = name := by
      simp only [DropReason.names, List.mem_cons, List.not_mem_nil, or_false] at member
      rcases member with rfl | rfl | rfl | rfl
      · exact ⟨.payloadTooLarge, rfl⟩
      · exact ⟨.rejected 0, rfl⟩
      · exact ⟨.stale, rfl⟩
      · exact ⟨.unsupportedEndpoint, rfl⟩
    obtain ⟨reason, rfl⟩ := reason
    exact ⟨e, reason, message⟩
  · rintro ⟨e, reason, message⟩
    refine List.any_eq_true.mpr ⟨e, e.mem_all, ?_⟩
    exact List.any_eq_true.mpr ⟨reason.name, reason.name_mem, beq_iff_eq.mpr message⟩

/-- How each message about a delivery that is given up ends. -/
def dropSuffix (e : Endpoint) (name : String) : List Char :=
  " to ".toList ++ e.name.toList ++ ": ".toList ++ name.toList

theorem dropMessage_toList (e : Endpoint) (id : String) (reason : DropReason) :
    (dropMessage e id reason).toList = dropPrefix ++ (id.toList ++ dropSuffix e reason.name) := by
  unfold dropMessage dropPrefix dropSuffix
  simp only [String.toList_append, List.append_assoc]

theorem dropSuffix_eq_of_suffix : ∀ e ∈ Endpoint.all, ∀ f ∈ Endpoint.all,
    ∀ m ∈ DropReason.names, ∀ n ∈ DropReason.names,
      dropSuffix e m <:+ dropSuffix f n → dropSuffix e m = dropSuffix f n := by
  decide +kernel

theorem dropMessage_injective {e f : Endpoint} {i j : String} {m n : DropReason}
    (same : dropMessage e i m = dropMessage f j n) : i = j := by
  have texts := congrArg String.toList same
  rw [dropMessage_toList, dropMessage_toList, List.append_cancel_left_eq] at texts
  have first : dropSuffix e m.name <:+ j.toList ++ dropSuffix f n.name :=
    texts ▸ List.suffix_append _ _
  have second : dropSuffix f n.name <:+ j.toList ++ dropSuffix f n.name := List.suffix_append _ _
  have equal : dropSuffix e m.name = dropSuffix f n.name := by
    rcases List.suffix_or_suffix_of_suffix first second with inside | inside
    · exact dropSuffix_eq_of_suffix e e.mem_all f f.mem_all _ m.name_mem _ n.name_mem inside
    · exact (dropSuffix_eq_of_suffix f f.mem_all e e.mem_all _ n.name_mem _ m.name_mem inside).symm
  rw [equal, List.append_cancel_right_eq] at texts
  exact String.toList_injective texts

theorem Report.isDropOf_drop (p : Pending) (reason : DropReason) (id : String) :
    (Report.drop p reason).isDropOf id = true ↔ p.id = id := by
  rw [isDropOf_iff]
  constructor
  · rintro ⟨e, reason', same⟩
    exact dropMessage_injective same
  · rintro rfl
    exact ⟨p.endpoint, reason, rfl⟩

theorem Event.isEndOf_event (p : Pending) (ending : Ending) (id : String) :
    (ending.event p).isEndOf id = true ↔ p.id = id := by
  cases ending <;> exact beq_iff_eq

theorem Happening.isMark_of_isEndOf {id : String} {h : Happening} (ends : h.isEndOf id = true) :
    h.isMark = true := by
  cases h with
  | event e => cases e <;> first | rfl | cases ends
  | report r | post e i clock payload | get e clock etag => cases ends

theorem Happening.isMark_of_isDropOf {id : String} {h : Happening} (drops : h.isDropOf id = true) :
    h.isMark = true := by
  cases h with
  | report r =>
    obtain ⟨e, reason, message⟩ := Report.isDropOf_iff.mp drops
    rw [isMark, List.isPrefixOf_iff_prefix, message]
    exact dropMessage_prefix e id reason
  | event e | post e i clock payload | get e clock etag => cases drops

namespace Service

variable {s t : Service} {added : List Happening} {o : Outline} {id : String}

/-- How many events told so far that a delivery has ended. -/
def endings (s : Service) (id : String) : Nat := s.journal.countP (Happening.isEndOf id)

/-- How many reports said so far that a delivery is given up. -/
def drops (s : Service) (id : String) : Nat := s.journal.countP (Happening.isDropOf id)

theorem Becomes.countP (became : Becomes added o s t) {f : Happening → Bool}
    (marks : ∀ h, f h = true → h.isMark = true) :
    t.journal.countP f = added.countP f + s.journal.countP f := by
  obtain ⟨hs, shape, rfl⟩ := became.journal
  have same : (hs.filter Happening.isMark).countP f = hs.countP f := by
    rw [List.countP_filter]
    apply List.countP_congr
    intro h _
    rw [Bool.and_eq_true]
    exact ⟨fun both => both.1, fun counts => ⟨counts, marks h counts⟩⟩
  rw [shape, List.countP_append, same]

theorem Becomes.endings (became : Becomes added o s t) (id : String) :
    t.endings id = added.countP (Happening.isEndOf id) + s.endings id :=
  became.countP fun _ => Happening.isMark_of_isEndOf

theorem Becomes.drops (became : Becomes added o s t) (id : String) :
    t.drops id = added.countP (Happening.isDropOf id) + s.drops id :=
  became.countP fun _ => Happening.isMark_of_isDropOf

end Service

end Outbox
