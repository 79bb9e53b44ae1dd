import Outbox.Proofs.Outline

/-! # Reports of the storage

What the storage reports is never mistaken for the report about a delivery that is given up.
-/

namespace Outbox

/-- A message that begins in another way than those about deliveries that are given up. -/
theorem Report.plain_of_start {r : Report} {c : Char} (first : r.message.toList.head? = some c)
    (other : c ≠ 'D') : r.Plain := by
  rintro ⟨rest, text⟩
  have start : dropPrefix = 'D' :: "ropped delivery ".toList := by decide
  rw [← text, start, List.cons_append, List.head?_cons, Option.some.injEq] at first
  exact other first.symm

theorem head?_toList_append {a b : String} {c : Char} (first : a.toList.head? = some c) :
    (a ++ b).toList.head? = some c := by
  rw [String.toList_append, List.head?_append, first]
  rfl

namespace Storage.Store

theorem failure_plain (kind : DiagnosticKind) (doing : String) (key : Key) (e : StoreError) :
    (failure kind doing key e).Plain := by
  refine Report.plain_of_start (c := 'F') ?_ (by decide)
  refine head?_toList_append (head?_toList_append (head?_toList_append ?_))
  decide

theorem stored_plain (s : Store) : ∀ r ∈ s.stored.2, r.Plain := by
  intro r member
  unfold stored at member
  split at member
  · simp at member
  · simp at member
  · rw [List.mem_singleton] at member
    subst member
    exact Report.plain_of_start (c := 'F') (by dsimp only; decide) (by decide)

theorem delete_plain (s : Store) (key : Key) : ∀ r ∈ (s.delete key).2, r.Plain := by
  intro r member
  unfold delete at member
  split at member
  · simp at member
  · simp at member
  · rw [List.mem_singleton] at member
    exact member ▸ failure_plain _ _ _ _

theorem deleteAll_plain (s : Store) (keys : List Key) :
    ∀ r ∈ (s.deleteAll keys).2, r.Plain := by
  induction keys generalizing s with
  | nil => simp [deleteAll]
  | cons key keys ih =>
    intro r member
    rcases List.mem_append.mp member with first | others
    · exact delete_plain s key r first
    · exact ih (s.delete key).1 r others

theorem enforce_plain (s : Store) (max : Nat) : ∀ r ∈ (s.enforce max).2.1, r.Plain := by
  intro r member
  simp only [enforce] at member
  split at member
  · exact stored_plain s r member
  · rcases List.mem_append.mp member with earlier | last
    · rcases List.mem_append.mp earlier with listing | deleting
      · exact stored_plain s r listing
      · exact deleteAll_plain s _ r deleting
    · rw [List.mem_singleton] at last
      subst last
      exact Report.plain_of_start (c := 'P') (by decide) (by decide)

theorem put_plain (s : Store) (key : Key) (draft : Draft) :
    ∀ r ∈ (s.put key draft).2.1, r.Plain := by
  intro r member
  unfold put at member
  split at member
  · rw [List.mem_singleton] at member
    exact member ▸ failure_plain _ _ _ _
  · exact enforce_plain _ _ r member

theorem load_plain (s : Store) (key : Key) : ∀ r ∈ (s.load key).1, r.Plain := by
  intro r member
  unfold load at member
  split at member
  · simp at member
  · simp at member
  · rw [List.mem_singleton] at member
    exact member ▸ failure_plain _ _ _ _

theorem loadBytes_plain (s : Store) (key : Key) : ∀ r ∈ (s.loadBytes key).1, r.Plain := by
  intro r member
  have loaded := load_plain s key
  unfold loadBytes at member
  split at member
  case h_1 reports _ found | h_2 reports found =>
    rw [found] at loaded
    exact loaded r member
  case h_3 reports _ found =>
    rw [found] at loaded
    split at member
    · exact loaded r member
    · rcases List.mem_append.mp member with earlier | last
      · exact loaded r earlier
      · rw [List.mem_singleton] at last
        exact last ▸ failure_plain _ _ _ _

end Storage.Store

namespace Queue

open Storage (Store)

theorem save_plain (q : Queue) (p : Pending) : ∀ r ∈ (q.save p).2.1, r.Plain := by
  intro r member
  unfold save at member
  split at member
  · simp at member
  case h_2 key _ =>
    have stored := Store.put_plain q.store key (.ofBytes p.encode)
    dsimp only at member
    split at member <;> exact stored r member

theorem remove_plain (q : Queue) (p : Pending) : ∀ r ∈ (q.remove p).2, r.Plain := by
  intro r member
  unfold remove at member
  dsimp only at member
  split at member
  · simp at member
  case h_2 key _ => exact Store.delete_plain q.store key r member

theorem find_plain (store : Store) (key : Storage.Key) :
    ∀ r ∈ (find store key).1, r.Plain := by
  have loaded := Store.load_plain store key
  have corrupt (cause : String) : Report.Plain ⟨.payloadLoadFail,
      "Corrupt" ++ " pending delivery " ++ key.name, some (.error cause)⟩ :=
    Report.plain_of_start (c := 'C') (head?_toList_append (head?_toList_append (by decide)))
      (by decide)
  have failed (cause : String) : Report.Plain ⟨.payloadLoadFail,
      "Failed to read" ++ " pending delivery " ++ key.name, some (.error cause)⟩ :=
    Report.plain_of_start (c := 'F') (head?_toList_append (head?_toList_append (by decide)))
      (by decide)
  have undecodable (cause : String) : Report.Plain ⟨.payloadLoadFail,
      "Undecodable" ++ " pending delivery " ++ key.name, some (.error cause)⟩ :=
    Report.plain_of_start (c := 'U') (head?_toList_append (head?_toList_append (by decide)))
      (by decide)
  intro r member
  unfold find at member
  dsimp only at member
  split at member
  case h_1 reports _ found | h_2 reports found =>
    rw [found] at loaded
    exact loaded r member
  case h_3 reports _ found =>
    rw [found] at loaded
    split at member
    · rcases List.mem_append.mp member with earlier | last
      · exact loaded r earlier
      · exact List.mem_singleton.mp last ▸ corrupt _
    · rcases List.mem_append.mp member with earlier | last
      · exact loaded r earlier
      · exact List.mem_singleton.mp last ▸ failed _
    · split at member
      · exact loaded r member
      · rcases List.mem_append.mp member with earlier | last
        · exact loaded r earlier
        · exact List.mem_singleton.mp last ▸ undecodable _

theorem loadKeys_plain (q : Queue) (keys : List Storage.Key) :
    ∀ r ∈ (q.loadKeys keys).2.1, r.Plain := by
  induction keys generalizing q with
  | nil => simp [loadKeys]
  | cons key keys ih =>
    intro r member
    simp only [loadKeys, List.mem_append] at member
    rcases member with (first | deleting) | others
    · exact find_plain q.store key r first
    · split at deleting
      · split at deleting <;> simp at deleting
      · exact Store.delete_plain q.store key r deleting
      · simp at deleting
      · simp at deleting
    · exact ih _ r others

theorem load_plain (q : Queue) : ∀ r ∈ q.load.2.1, r.Plain := by
  intro r member
  simp only [load, List.mem_append] at member
  rcases member with listing | loading
  · exact Store.stored_plain q.store r listing
  · exact loadKeys_plain q _ r loading

end Queue

end Outbox
