import Mathlib.Data.List.Nodup
import Outbox.Delivery.Queue

/-! # What a queue holds

The effect of every operation on the deliveries in memory: which are held after it, that an endpoint
holds each id once, and that the oldest stay in front.
-/

namespace Outbox

namespace Pending

theorem isBefore_trans {a b c : Pending} (first : a.isBefore b = true)
    (second : b.isBefore c = true) : a.isBefore c = true := by
  simp only [isBefore, Bool.or_eq_true, Bool.and_eq_true, decide_eq_true_eq, beq_iff_eq] at *
  omega

theorem isBefore_asymm {a b : Pending} (first : a.isBefore b = true) : b.isBefore a = false := by
  rw [Bool.eq_false_iff]
  intro second
  simp only [isBefore, Bool.or_eq_true, Bool.and_eq_true, decide_eq_true_eq, beq_iff_eq] at *
  omega

/-- Two deliveries of which neither was made before the other have the same time and number. -/
theorem eq_of_not_isBefore {a b : Pending} (first : a.isBefore b = false)
    (second : b.isBefore a = false) : (a.created, a.sequence) = (b.created, b.sequence) := by
  simp only [isBefore, Bool.or_eq_false_iff, Bool.and_eq_false_iff, decide_eq_false_iff_not,
    beq_eq_false_iff_ne] at first second
  have created : a.created.val = b.created.val := by omega
  have sequence : a.sequence.val = b.sequence.val := by omega
  rw [Ranged.ext created, Ranged.ext sequence]

/-- The delivery as it was before any attempt. -/
def origin (p : Pending) : Pending := { p with retries := 0, lastAttempt := none }

theorem origin_failed (p : Pending) (now : Millis) : (p.failed now).origin = p.origin := rfl

theorem id_of_origin {a b : Pending} (same : a.origin = b.origin) : a.id = b.id :=
  show a.origin.id = b.origin.id from congrArg id same

theorem endpoint_of_origin {a b : Pending} (same : a.origin = b.origin) :
    a.endpoint = b.endpoint :=
  show a.origin.endpoint = b.origin.endpoint from congrArg endpoint same

theorem key?_of_origin {a b : Pending} (same : a.origin = b.origin) : a.key? = b.key? :=
  show a.origin.key? = b.origin.key? from congrArg key? same

/-- The place of a delivery among others: its time, and its number for those of one millisecond. -/
def stamp (p : Pending) : Millis × Word64 := (p.created, p.sequence)

theorem stamp_of_origin {a b : Pending} (same : a.origin = b.origin) : a.stamp = b.stamp :=
  show a.origin.stamp = b.origin.stamp from congrArg stamp same

theorem isBefore_of_stamp {a b : Pending} (same : a.stamp = b.stamp) (p : Pending) :
    p.isBefore a = p.isBefore b ∧ a.isBefore p = b.isBefore p := by
  obtain ⟨created, sequence⟩ := Prod.mk.inj same
  simp only [isBefore, created, sequence, and_self]

theorem key?_eq_some {p : Pending} {k : Storage.Key} (keyed : p.key? = some k) :
    k.timestamp = p.created ∧ k.kind.endpoint = p.endpoint ∧ k.id = p.id := by
  unfold key? at keyed
  cases kind : p.endpoint.kind? with
  | none => simp [kind] at keyed
  | some kind' =>
    by_cases valid : Storage.validId p.id = true
    · simp only [kind, Storage.Key.make, valid, dite_true, Option.some.injEq] at keyed
      subst keyed
      exact ⟨rfl, Endpoint.kind?_eq_some_iff.mp kind, rfl⟩
    · simp [kind, Storage.Key.make, valid] at keyed

end Pending

namespace Queue

/-- The oldest come first. -/
def Sorted (ps : List Pending) : Prop := ps.Pairwise fun a b => b.isBefore a = false

theorem mem_insertSorted {p x : Pending} {ps : List Pending} :
    x ∈ insertSorted p ps ↔ x = p ∨ x ∈ ps := by
  induction ps with
  | nil => simp [insertSorted]
  | cons q qs ih =>
    unfold insertSorted
    split
    · simp
    · simp [ih, or_left_comm]

theorem insertSorted_perm (p : Pending) (ps : List Pending) :
    (insertSorted p ps).Perm (p :: ps) := by
  induction ps with
  | nil => exact List.Perm.refl _
  | cons q qs ih =>
    unfold insertSorted
    split
    · exact List.Perm.refl _
    · exact (ih.cons q).trans (List.Perm.swap p q qs)

theorem insertSorted_sorted {p : Pending} {ps : List Pending} (sorted : Sorted ps) :
    Sorted (insertSorted p ps) := by
  induction ps with
  | nil => exact List.pairwise_singleton _ _
  | cons q qs ih =>
    obtain ⟨first, rest⟩ := List.pairwise_cons.mp sorted
    unfold insertSorted
    split
    case isTrue before =>
      refine List.pairwise_cons.mpr ⟨?_, sorted⟩
      intro x member
      rcases List.mem_cons.mp member with rfl | later
      · exact Pending.isBefore_asymm before
      · -- what comes after `q` and before `p` would come before `q`
        rw [Bool.eq_false_iff]
        intro earlier
        have bad : x.isBefore q = true := Pending.isBefore_trans earlier before
        rw [first x later] at bad
        cases bad
    case isFalse after =>
      refine List.pairwise_cons.mpr ⟨?_, ih rest⟩
      intro x member
      rcases mem_insertSorted.mp member with rfl | later
      · simpa using after
      · exact first x later

theorem mem_insert {p x : Pending} {ps : List Pending} :
    x ∈ insert p ps ↔ x = p ∨ (x ∈ ps ∧ x.id ≠ p.id) := by
  unfold insert
  split
  case isTrue found =>
    obtain ⟨old, member, same⟩ := List.any_eq_true.mp found
    simp only [beq_iff_eq] at same
    simp only [List.mem_map, beq_iff_eq]
    constructor
    · rintro ⟨y, inside, rfl⟩
      split
      case isTrue => exact .inl rfl
      case isFalse other => exact .inr ⟨inside, other⟩
    · rintro (rfl | ⟨inside, other⟩)
      · exact ⟨old, member, by simp [same]⟩
      · exact ⟨x, inside, by simp [other]⟩
  case isFalse missing =>
    rw [mem_insertSorted]
    have other (y : Pending) (member : y ∈ ps) : y.id ≠ p.id := by
      intro same
      exact missing (List.any_eq_true.mpr ⟨y, member, by simp [same]⟩)
    constructor
    · rintro (rfl | member)
      · exact .inl rfl
      · exact .inr ⟨member, other x member⟩
    · rintro (rfl | ⟨member, _⟩)
      · exact .inl rfl
      · exact .inr member

theorem insert_ids_nodup {p : Pending} {ps : List Pending} (ids : (ps.map (·.id)).Nodup) :
    ((insert p ps).map (·.id)).Nodup := by
  unfold insert
  split
  case isTrue found =>
    have same : (ps.map fun q => if q.id == p.id then p else q).map (·.id) = ps.map (·.id) := by
      rw [List.map_map]
      apply List.map_congr_left
      intro q _
      simp only [Function.comp_apply, beq_iff_eq]
      split
      case isTrue equal => exact equal.symm
      case isFalse => rfl
    rw [same]
    exact ids
  case isFalse missing =>
    rw [((insertSorted_perm p ps).map _).nodup_iff, List.map_cons, List.nodup_cons]
    refine ⟨?_, ids⟩
    intro member
    obtain ⟨y, inside, same⟩ := List.mem_map.mp member
    exact missing (List.any_eq_true.mpr ⟨y, inside, by simp [same]⟩)

/-- Replacing a delivery by one with the same stamp keeps the order. -/
theorem insert_sorted {p : Pending} {ps : List Pending} (sorted : Sorted ps)
    (same : ∀ q ∈ ps, q.id = p.id → q.stamp = p.stamp) : Sorted (insert p ps) := by
  unfold insert
  split
  case isTrue =>
    have kept (q : Pending) (member : q ∈ ps) :
        (if q.id == p.id then p else q).stamp = q.stamp := by
      split
      case isTrue equal => exact (same q member (beq_iff_eq.mp equal)).symm
      case isFalse => rfl
    refine List.pairwise_map.mpr (sorted.imp_of_mem ?_)
    intro a b inside inside' later
    rw [(Pending.isBefore_of_stamp (kept a inside) _).1,
      (Pending.isBefore_of_stamp (kept b inside') _).2]
    exact later
  case isFalse => exact insertSorted_sorted sorted

/-! ## The deliveries in memory -/

/-- The queue has the delivery in memory. -/
def Holds (q : Queue) (p : Pending) : Prop := p ∈ q.pending p.endpoint

/-- Every delivery is under its endpoint, and no endpoint has two with one id. -/
structure Tidy (q : Queue) : Prop where
  home : ∀ e, ∀ p ∈ q.pending e, p.endpoint = e
  ids : ∀ e, ((q.pending e).map (·.id)).Nodup

theorem ofStore_tidy (store : Storage.Store) : (ofStore store).Tidy where
  home e p member := by simp [pending, ofStore] at member
  ids e := by simp [pending, ofStore]

@[simp]
theorem pending_remember (q : Queue) (p : Pending) (e : Endpoint) :
    (q.remember p).pending e = if e = p.endpoint then insert p (q.pending e) else q.pending e := by
  simp only [pending, remember, PerEndpoint.get_set]
  split
  case isTrue same => rw [same]
  case isFalse => rfl

@[simp]
theorem pending_forget (q : Queue) (e f : Endpoint) (id : String) :
    (q.forget e id).pending f =
      if f = e then (q.pending f).filter (fun p => p.id != id) else q.pending f := by
  simp only [pending, forget, PerEndpoint.get_set]
  split
  case isTrue same => rw [same]
  case isFalse => rfl

@[simp]
theorem remember_store (q : Queue) (p : Pending) : (q.remember p).store = q.store := rfl

@[simp]
theorem forget_store (q : Queue) (e : Endpoint) (id : String) :
    (q.forget e id).store = q.store := rfl

theorem forgetAll_store (q : Queue) (keys : List Storage.Key) :
    (q.forgetAll keys).store = q.store := by
  induction keys generalizing q with
  | nil => rfl
  | cons key keys ih => exact ih (q.forget key.kind.endpoint key.id)

theorem holds_remember {q : Queue} {p x : Pending} :
    (q.remember p).Holds x ↔
      x = p ∨ (q.Holds x ∧ ¬(x.endpoint = p.endpoint ∧ x.id = p.id)) := by
  unfold Holds
  rw [pending_remember]
  split
  case isTrue same => simp [mem_insert, same]
  case isFalse other =>
    have differ : x ≠ p := fun same => other (congrArg Pending.endpoint same)
    simp [other, differ]

theorem holds_forget {q : Queue} {e : Endpoint} {id : String} {x : Pending} :
    (q.forget e id).Holds x ↔ q.Holds x ∧ ¬(x.endpoint = e ∧ x.id = id) := by
  unfold Holds
  rw [pending_forget]
  split
  case isTrue same => simp [same]
  case isFalse other => simp [other]

theorem holds_forgetAll {q : Queue} {keys : List Storage.Key} {x : Pending} :
    (q.forgetAll keys).Holds x ↔
      q.Holds x ∧ ∀ k ∈ keys, ¬(x.endpoint = k.kind.endpoint ∧ x.id = k.id) := by
  induction keys generalizing q with
  | nil => simp [forgetAll]
  | cons key keys ih =>
    have next : (q.forgetAll (key :: keys)).Holds x ↔
        ((q.forget key.kind.endpoint key.id).forgetAll keys).Holds x := Iff.rfl
    rw [next, ih, holds_forget, List.forall_mem_cons, and_assoc]

theorem Tidy.remember {q : Queue} (tidy : q.Tidy) (p : Pending) : (q.remember p).Tidy where
  home e x member := by
    rw [pending_remember] at member
    split at member
    case isTrue same =>
      rcases mem_insert.mp member with rfl | ⟨old, _⟩
      · exact same.symm
      · exact tidy.home e x old
    case isFalse => exact tidy.home e x member
  ids e := by
    rw [pending_remember]
    split
    case isTrue => exact insert_ids_nodup (tidy.ids e)
    case isFalse => exact tidy.ids e

theorem Tidy.forget {q : Queue} (tidy : q.Tidy) (e : Endpoint) (id : String) :
    (q.forget e id).Tidy where
  home f x member := by
    rw [pending_forget] at member
    split at member
    case isTrue => exact tidy.home f x (List.mem_filter.mp member).1
    case isFalse => exact tidy.home f x member
  ids f := by
    rw [pending_forget]
    split
    case isTrue => exact (tidy.ids f).sublist (List.filter_sublist.map _)
    case isFalse => exact tidy.ids f

theorem Tidy.forgetAll {q : Queue} (tidy : q.Tidy) (keys : List Storage.Key) :
    (q.forgetAll keys).Tidy := by
  induction keys generalizing q with
  | nil => exact tidy
  | cons key keys ih => exact ih (tidy.forget key.kind.endpoint key.id)

theorem Tidy.withStore {q : Queue} (tidy : q.Tidy) (store : Storage.Store) :
    ({ q with store } : Queue).Tidy :=
  ⟨tidy.home, tidy.ids⟩

theorem Tidy.save {q : Queue} (tidy : q.Tidy) (p : Pending) : (q.save p).1.Tidy := by
  unfold Queue.save
  split
  case h_1 => exact tidy.remember p
  case h_2 key _ =>
    have stored := (tidy.withStore (q.store.putBytes key p.encode).1).remember p
    dsimp only
    split
    case h_1 pruned _ => exact stored.forgetAll pruned
    case h_2 => exact stored

theorem Tidy.remove {q : Queue} (tidy : q.Tidy) (p : Pending) : (q.remove p).1.Tidy :=
  (tidy.withStore _).forget p.endpoint p.id

theorem Tidy.loadKeys {q : Queue} (tidy : q.Tidy) (keys : List Storage.Key) :
    (q.loadKeys keys).1.Tidy := by
  induction keys generalizing q with
  | nil => exact tidy
  | cons key keys ih =>
    unfold Queue.loadKeys
    dsimp only
    apply ih
    split
    · split
      · exact tidy
      · exact tidy.remember _
    · exact tidy.withStore _
    · exact tidy
    · exact tidy

theorem Tidy.load {q : Queue} (tidy : q.Tidy) : q.load.1.Tidy := tidy.loadKeys _

/-- In a tidy queue an endpoint finds the delivery that it holds under an id. -/
theorem Tidy.get?_eq_some_iff {q : Queue} (tidy : q.Tidy) {e : Endpoint} {id : String}
    {p : Pending} : q.get? e id = some p ↔ p.endpoint = e ∧ p.id = id ∧ q.Holds p := by
  constructor
  · intro found
    have member : p ∈ q.pending e := List.mem_of_find?_eq_some found
    have home := tidy.home e p member
    refine ⟨home, by simpa using List.find?_some found, ?_⟩
    rw [Holds, home]
    exact member
  · rintro ⟨rfl, rfl, held⟩
    have present : q.get? p.endpoint p.id ≠ none := by
      intro missing
      simpa using (List.find?_eq_none.mp missing) p held
    obtain ⟨x, found⟩ := Option.ne_none_iff_exists'.mp present
    have member : x ∈ q.pending p.endpoint := List.mem_of_find?_eq_some found
    have same : x.id = p.id := by simpa using List.find?_some found
    rw [found, List.inj_on_of_nodup_map (tidy.ids p.endpoint) member held same]

end Queue

end Outbox
