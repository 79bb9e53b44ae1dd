import Outbox.Proofs.QueueContents
import Outbox.Proofs.StoreEntries

/-! # Loading what a directory holds

A queue loads the keys that its store lists, one after the other, whatever the files under them
hold. What is under a key decides what becomes of it: a delivery comes in unless the queue has one
to the same endpoint with the same id, a file that holds none is reported and deleted, and what
cannot be read is reported and left. None of this touches what was in memory or another file, so
there is nothing to do when the store is loaded again.
-/

namespace Outbox

open Storage (Key Store Place Node Content)

/-! ## What is under a key -/

theorem Storage.Content.payload?_eq_error {content : Content} {e : Storage.FileError}
    (failed : content.payload? = .error e) : e = .corrupt := by
  cases content with
  | gzip payload => cases failed
  | raw bytes =>
    simp only [Storage.Content.payload?] at failed
    split at failed <;> cases failed
    rfl

/-- The delivery that was found, if it was one. -/
def Queue.Found.pending? : Queue.Found → Option Pending
  | .pending p => some p
  | .missing | .corrupt | .unreadable => none

namespace Storage.Place

/-- What is left when only entries with certain names are kept. -/
def sift (p : Place) (good : String → Bool) : Place :=
  match p with
  | absent => absent
  | blocked => blocked
  | folder es => folder (es.filter fun e => good e.1)

theorem openFile_sift {good : String → Bool} {name : String} (kept : good name = true) (p : Place) :
    (p.sift good).openFile name = p.openFile name := by
  cases p with
  | absent | blocked => rfl
  | folder es => simp only [sift, openFile, entry?_filter, kept, if_true]

end Storage.Place

namespace Storage.Store

open Queue (Found)

variable {s : Store} {k l : Key}

/-- What is under a key: a delivery; nothing; a file that holds no delivery, as its content is
damaged or something else; or something that cannot be read. -/
def under (s : Store) (k : Key) : Found :=
  match s.place.openFile k.name with
  | .ok (.file content) =>
    match content.payload? with
    | .ok b => (Pending.decode? b).elim .corrupt .pending
    | .error _ => .corrupt
  | .ok .folder => .unreadable
  | .error .notFound => .missing
  | .error _ => .unreadable

/-- The store with the entries with certain names. -/
def sift (s : Store) (good : String → Bool) : Store := { s with place := s.place.sift good }

theorem sift_sift (s : Store) (f g : String → Bool) :
    (s.sift f).sift g = s.sift fun name => f name && g name := by
  obtain ⟨place, max⟩ := s
  cases place with
  | absent | blocked => rfl
  | folder es => simp [sift, Place.sift, List.filter_filter, Bool.and_comm]

theorem sift_all (s : Store) {good : String → Bool} (all : ∀ name, good name = true) :
    s.sift good = s := by
  obtain ⟨place, max⟩ := s
  cases place with
  | absent | blocked => rfl
  | folder es => simp [sift, Place.sift, all]

theorem under_sift {good : String → Bool} (kept : good k.name = true) :
    (s.sift good).under k = s.under k := by
  rw [under, under, sift, Place.openFile_sift kept]

/-- A file that holds no delivery is an entry of the directory. -/
theorem folder_of_corrupt (corrupt : s.under k = .corrupt) : ∃ es content,
    s.place = .folder es ∧ fits k.name = true ∧
      Place.entry? es k.name = some (.file content) := by
  unfold under at corrupt
  split at corrupt
  case h_1 content opened =>
    obtain ⟨place, max⟩ := s
    obtain ⟨fit, there⟩ := Place.openFile_eq_ok_iff.mp opened
    cases place with
    | absent | blocked => cases there
    | folder es => exact ⟨es, content, rfl, fit, there⟩
  all_goals cases corrupt

theorem under_sift_of_corrupt {good : String → Bool} (corrupt : s.under k = .corrupt)
    (gone : good k.name = false) : (s.sift good).under k = .missing := by
  obtain ⟨es, content, place, fit, _⟩ := folder_of_corrupt corrupt
  have missing : (s.sift good).place.openFile k.name = .error .notFound := by
    simp [sift, place, Place.sift, Place.openFile, fit, Place.entry?_filter, gone]
  rw [under, missing]

/-- Deleting a file that holds no delivery works. -/
theorem delete_of_corrupt (corrupt : s.under k = .corrupt) :
    s.delete k = (s.sift fun name => name != k.name, []) := by
  obtain ⟨es, content, place, fit, there⟩ := folder_of_corrupt corrupt
  simp [delete, place, Place.removeFile, fit, there, sift, Place.sift, Place.without]

theorem under_of_deleted (corrupt : s.under k = .corrupt) (l : Key) :
    (s.sift fun name => name != k.name).under l = if l = k then .missing else s.under l := by
  by_cases same : l = k
  · subst same
    rw [if_pos rfl, under_sift_of_corrupt corrupt (by simp)]
  · have apart : l.name ≠ k.name := fun equal => same (Key.name_injective equal)
    rw [if_neg same, under_sift (by simpa using apart)]

/-- The deliveries under these keys. -/
def deliveriesUnder (s : Store) (ks : List Key) : List Pending :=
  ks.filterMap fun k => (s.under k).pending?

theorem deliveriesUnder_cons (s : Store) (k : Key) (ks : List Key) :
    s.deliveriesUnder (k :: ks) = (s.under k).pending?.toList ++ s.deliveriesUnder ks := by
  unfold deliveriesUnder
  cases there : s.under k <;> simp [there, Found.pending?]

/-- Nothing new is listed when entries are taken away. -/
theorem stored_sift (s : Store) (good : String → Bool) :
    (s.sift good).stored.1 ⊆ s.stored.1 := by
  intro k listed
  rw [(s.sift good).stored_perm.mem_iff] at listed
  rw [s.stored_perm.mem_iff]
  obtain ⟨place, max⟩ := s
  cases place with
  | absent | blocked => cases listed
  | folder es => exact (List.filter_sublist.filterMap _).subset listed

end Storage.Store

/-! ## Labels -/

/-- What a delivery is known by. -/
def Pending.label (p : Pending) : Endpoint × String := (p.endpoint, p.id)

/-- Of these deliveries the first one with each label. -/
def firsts : List Pending → List Pending
  | [] => []
  | p :: ps => p :: (firsts ps).filter fun x => x.label != p.label

theorem firsts_filter (label : Endpoint × String) (ps : List Pending) :
    firsts (ps.filter fun x => x.label != label) =
      (firsts ps).filter fun x => x.label != label := by
  induction ps with
  | nil => rfl
  | cons p ps ih =>
    by_cases same : p.label = label
    · rw [List.filter_cons_of_neg (by simp [same]), ih, firsts,
        List.filter_cons_of_neg (by simp [same]), same, List.filter_filter]
      simp
    · rw [List.filter_cons_of_pos (by simp [same]), firsts, ih, firsts,
        List.filter_cons_of_pos (by simp [same]), List.filter_comm]

theorem firsts_sublist (ps : List Pending) : (firsts ps).Sublist ps := by
  induction ps with
  | nil => exact .slnil
  | cons p ps ih => exact (List.filter_sublist.trans ih).cons_cons p

/-! ## What is reported -/

/-- What begins the report about a file that holds no delivery. -/
def condemning : List String := ["Corrupt pending delivery ", "Undecodable pending delivery "]

/-- What begins the report about something that cannot be read. -/
def sparing : List String := ["Failed to load payload ", "Failed to read pending delivery "]

/-- The report tells one of these things of a key. -/
def Report.Tells (r : Report) (whats : List String) (k : Key) : Prop :=
  r.kind = .payloadLoadFail ∧ ∃ what ∈ whats, r.message = what ++ k.name

instance (r : Report) (whats : List String) (k : Key) : Decidable (r.Tells whats k) :=
  inferInstanceAs (Decidable (_ ∧ _))

/-- Where a report tells something of a key, it tells that only, and of that key only. -/
theorem Report.Tells.unique {r : Report} {whats whats' : List String} {k l : Key}
    (tells : r.Tells whats k) (tells' : r.Tells whats' l)
    (known : whats ⊆ condemning ++ sparing) (known' : whats' ⊆ condemning ++ sparing) :
    k = l ∧ ∃ what ∈ whats, what ∈ whats' := by
  have apart : ∀ a ∈ condemning ++ sparing, ∀ b ∈ condemning ++ sparing,
      a.toList <+: b.toList → a = b := by decide
  obtain ⟨_, a, member, text⟩ := tells
  obtain ⟨_, b, member', text'⟩ := tells'
  have same : a.toList ++ k.name.toList = b.toList ++ l.name.toList := by
    rw [← String.toList_append, ← String.toList_append, ← text, text']
  have start : a = b := by
    rcases List.prefix_or_prefix_of_prefix (List.prefix_append a.toList k.name.toList)
      (same ▸ List.prefix_append b.toList l.name.toList) with inside | inside
    · exact apart a (known member) b (known' member') inside
    · exact (apart b (known' member') a (known member) inside).symm
  subst start
  exact ⟨Key.name_injective (String.toList_inj.mp (List.append_cancel_left same)),
    a, member, member'⟩

theorem Report.Tells.countP_same {r : Report} {whats : List String} {k : Key}
    (tells : r.Tells whats k) (known : whats ⊆ condemning ++ sparing) (l : Key) :
    [r].countP (fun r => r.Tells whats l) = if l = k then 1 else 0 := by
  by_cases same : l = k
  · simp [same, tells]
  · have silent : ¬r.Tells whats l := fun tells' => same (tells'.unique tells known known).1
    simp [same, silent]

theorem Report.Tells.not_tells {r : Report} {whats whats' : List String} {k : Key}
    (tells : r.Tells whats k) (known : whats ⊆ condemning ++ sparing)
    (known' : whats' ⊆ condemning ++ sparing) (apart : ∀ what ∈ whats, what ∉ whats') (l : Key) :
    ¬r.Tells whats' l := by
  intro tells'
  obtain ⟨_, what, member, member'⟩ := tells.unique tells' known known'
  exact apart what member member'

/-- That the directory could not be listed tells nothing of a key. -/
theorem Storage.Store.stored_silent (s : Store) : ∀ r ∈ s.stored.2, r.kind = .payloadLoadFail ∧
    ∀ whats ⊆ condemning ++ sparing, ∀ k, ¬r.Tells whats k := by
  have apart : ∀ what ∈ condemning ++ sparing,
      ¬what.toList <+: "Failed to list payload storage".toList := by decide
  intro r member
  unfold stored at member
  split at member
  · cases member
  · cases member
  · obtain rfl := List.mem_singleton.mp member
    refine ⟨rfl, fun whats known k => ?_⟩
    rintro ⟨_, what, inside, text⟩
    refine apart what (known inside) ⟨k.name.toList, ?_⟩
    rw [← String.toList_append, ← text]

namespace Queue

/-- What is reported when something is found. -/
inductive Told (k : Key) : Found → List Report → Prop where
  | pending {p : Pending} : Told k (.pending p) []
  | missing : Told k .missing []
  | corrupt {r : Report} (tells : r.Tells condemning k) : Told k .corrupt [r]
  | unreadable {r : Report} (tells : r.Tells sparing k) : Told k .unreadable [r]

theorem find_eq (s : Store) (k : Key) :
    ∃ reports, find s k = (reports, s.under k) ∧ Told k (s.under k) reports := by
  have named {what text : String} (same : text = what) : text ++ k.name = what ++ k.name :=
    congrArg (· ++ k.name) same
  unfold find Store.load Store.under
  cases opened : s.place.openFile k.name with
  | error e =>
    cases e with
    | notFound => exact ⟨[], rfl, .missing⟩
    | _ =>
      exact ⟨_, rfl, .unreadable ⟨rfl, "Failed to load payload ", by decide, named (by decide)⟩⟩
  | ok node =>
    cases node with
    | folder =>
      exact ⟨_, rfl,
        .unreadable ⟨rfl, "Failed to read pending delivery ", by decide, named (by decide)⟩⟩
    | file content =>
      dsimp only [Node.payload?]
      cases held : content.payload? with
      | error e =>
        obtain rfl := content.payload?_eq_error held
        exact ⟨_, rfl,
          .corrupt ⟨rfl, "Corrupt pending delivery ", by decide, named (by decide)⟩⟩
      | ok b =>
        dsimp only
        cases Pending.decode? b with
        | none =>
          exact ⟨_, rfl,
            .corrupt ⟨rfl, "Undecodable pending delivery ", by decide, named (by decide)⟩⟩
        | some p => exact ⟨[], rfl, .pending⟩

/-! ## What comes in -/

variable {q : Queue} {k : Key} {ks : List Key} {p : Pending} {ps : List Pending}

/-- Of these deliveries those that the queue does not have, and of several with one label the
first. -/
def newcomers (q : Queue) (ps : List Pending) : List Pending :=
  firsts (ps.filter fun p => !q.contains p.endpoint p.id)

theorem newcomers_subset (q : Queue) (ps : List Pending) : q.newcomers ps ⊆ ps :=
  ((firsts_sublist _).trans List.filter_sublist).subset

theorem contains_iff {e : Endpoint} {id : String} :
    q.contains e id = true ↔ ∃ x ∈ q.pending e, x.id = id := by
  simp [contains, get?, List.find?_isSome]

theorem contains_remember (q : Queue) (p : Pending) (e : Endpoint) (id : String) :
    (q.remember p).contains e id = (q.contains e id || (e, id) == p.label) := by
  rw [Bool.eq_iff_iff, Bool.or_eq_true, contains_iff, contains_iff, pending_remember]
  by_cases home : e = p.endpoint
  · subst home
    simp only [if_true, mem_insert, Pending.label, beq_iff_eq, Prod.mk.injEq, true_and]
    constructor
    · rintro ⟨x, rfl | ⟨member, _⟩, same⟩
      · exact .inr same.symm
      · exact .inl ⟨x, member, same⟩
    · rintro (⟨x, member, same⟩ | same)
      · by_cases replaced : x.id = p.id
        · exact ⟨p, .inl rfl, replaced ▸ same⟩
        · exact ⟨x, .inr ⟨member, replaced⟩, same⟩
      · exact ⟨p, .inl rfl, same.symm⟩
  · have apart : ((e, id) == p.label) = false := by simp [Pending.label, home]
    rw [if_neg home, apart]
    simp

theorem newcomers_of_known (known : q.contains p.endpoint p.id = true) :
    q.newcomers (p :: ps) = q.newcomers ps := by
  rw [newcomers, List.filter_cons_of_neg (by simp [known])]
  rfl

theorem newcomers_of_new (new : q.contains p.endpoint p.id = false) :
    q.newcomers (p :: ps) = p :: (q.remember p).newcomers ps := by
  have later : (ps.filter fun x => !(q.remember p).contains x.endpoint x.id) =
      (ps.filter fun x => !q.contains x.endpoint x.id).filter fun x => x.label != p.label := by
    rw [List.filter_filter]
    refine List.filter_congr fun x _ => ?_
    rw [contains_remember, Bool.not_or, Bool.and_comm]
    rfl
  rw [newcomers, List.filter_cons_of_pos (by simp [new]), firsts, newcomers, later,
    firsts_filter]

/-! ## One key and then the next -/

/-- All that loading one key does to a queue, and how many deliveries it brings in. -/
inductive LoadsOne (q : Queue) (k : Key) : Queue × Nat → Prop where
  | adds {p : Pending} (there : q.store.under k = .pending p)
      (new : q.contains p.endpoint p.id = false) : LoadsOne q k (q.remember p, 1)
  | knows {p : Pending} (there : q.store.under k = .pending p)
      (known : q.contains p.endpoint p.id = true) : LoadsOne q k (q, 0)
  | deletes (there : q.store.under k = .corrupt) :
      LoadsOne q k ({ q with store := q.store.sift fun name => name != k.name }, 0)
  | passes (there : q.store.under k = .missing ∨ q.store.under k = .unreadable) :
      LoadsOne q k (q, 0)

theorem loadKeys_cons (q : Queue) (k : Key) (ks : List Key) : ∃ q' n reports,
    LoadsOne q k (q', n) ∧ Told k (q.store.under k) reports ∧
      q.loadKeys (k :: ks) =
        ((q'.loadKeys ks).1, reports ++ (q'.loadKeys ks).2.1, n + (q'.loadKeys ks).2.2) := by
  obtain ⟨reports, found, told⟩ := find_eq q.store k
  cases there : q.store.under k <;> rw [there] at found told
  case pending p =>
    cases known : q.contains p.endpoint p.id with
    | true => exact ⟨q, 0, reports, .knows there known, told, by simp [loadKeys, found, known]⟩
    | false =>
      exact ⟨q.remember p, 1, reports, .adds there known, told, by simp [loadKeys, found, known]⟩
  case missing => exact ⟨q, 0, reports, .passes (.inl there), told, by simp [loadKeys, found]⟩
  case corrupt =>
    refine ⟨_, 0, reports, .deletes there, told, ?_⟩
    simp [loadKeys, found, Store.delete_of_corrupt there]
  case unreadable => exact ⟨q, 0, reports, .passes (.inr there), told, by simp [loadKeys, found]⟩

variable {q' : Queue} {l : Key} {n : Nat} {reports : List Report}

theorem pending_remember_of_new {p : Pending} (new : q.contains p.endpoint p.id = false)
    (e : Endpoint) : (q.remember p).pending e =
      if e = p.endpoint then insertSorted p (q.pending e) else q.pending e := by
  rw [pending_remember]
  split
  case isTrue home =>
    subst home
    have fresh : ((q.pending p.endpoint).any fun x => x.id == p.id) = false := by
      rw [Bool.eq_false_iff] at new ⊢
      intro there
      obtain ⟨x, member, same⟩ := List.any_eq_true.mp there
      exact new (contains_iff.mpr ⟨x, member, beq_iff_eq.mp same⟩)
    rw [insert, fresh]
    rfl
  case isFalse => rfl

theorem sublist_insertSorted (p : Pending) (ps : List Pending) :
    ps.Sublist (insertSorted p ps) := by
  induction ps with
  | nil => exact List.nil_sublist _
  | cons q qs ih =>
    unfold insertSorted
    split
    · exact List.sublist_cons_self _ _
    · exact ih.cons_cons q

theorem mem_foldl_insertSorted {x : Pending} {ps qs : List Pending} :
    x ∈ ps.foldl (fun ps p => insertSorted p ps) qs ↔ x ∈ ps ∨ x ∈ qs := by
  induction ps generalizing qs with
  | nil => simp
  | cons p ps ih =>
    rw [List.foldl_cons, ih, mem_insertSorted, List.mem_cons, or_left_comm, or_assoc]

/-- What is found under another key later is what was there before. -/
theorem LoadsOne.under (one : LoadsOne q k (q', n)) (l : Key) : q'.store.under l =
    if l = k ∧ q.store.under k = .corrupt then .missing else q.store.under l := by
  cases one with
  | adds there | knows there => simp [there]
  | deletes there => simp [Store.under_of_deleted there, there]
  | passes there => rcases there with there | there <;> simp [there]

theorem LoadsOne.disk (one : LoadsOne q k (q', n)) : q'.store =
    q.store.sift fun name => decide (q.store.under k = .corrupt → name ≠ k.name) := by
  cases one with
  | adds there | knows there => exact (Store.sift_all _ (by simp [there])).symm
  | deletes there => simp [there]; rfl
  | passes there =>
    rcases there with there | there <;> exact (Store.sift_all _ (by simp [there])).symm

theorem LoadsOne.deliveriesUnder (one : LoadsOne q k (q', n)) (ks : List Key) :
    q'.store.deliveriesUnder ks = q.store.deliveriesUnder ks := by
  refine List.filterMap_congr fun l _ => ?_
  rw [one.under]
  split
  case isTrue gone =>
    rw [gone.1, gone.2]
    rfl
  case isFalse => rfl

/-- A key brings in one delivery, which is new, or none. -/
theorem LoadsOne.brings (one : LoadsOne q k (q', n)) (ks : List Key) :
    (∃ p, q.contains p.endpoint p.id = false ∧ q' = q.remember p ∧ n = 1 ∧
      q.newcomers (q.store.deliveriesUnder (k :: ks)) =
        p :: q'.newcomers (q'.store.deliveriesUnder ks)) ∨
    q'.entries = q.entries ∧ n = 0 ∧
      q.newcomers (q.store.deliveriesUnder (k :: ks)) =
        q'.newcomers (q'.store.deliveriesUnder ks) := by
  have later := one.deliveriesUnder ks
  rw [later, Store.deliveriesUnder_cons]
  cases one with
  | @adds p there new =>
    rw [there]
    exact .inl ⟨p, new, rfl, rfl, newcomers_of_new new⟩
  | knows there known =>
    rw [there]
    exact .inr ⟨rfl, rfl, newcomers_of_known known⟩
  | deletes there =>
    rw [there]
    exact .inr ⟨rfl, rfl, rfl⟩
  | passes there =>
    rcases there with there | there <;> rw [there] <;> exact .inr ⟨rfl, rfl, rfl⟩

theorem Told.countP_condemning {found : Found} (told : Told k found reports) (l : Key) :
    reports.countP (fun r => r.Tells condemning l) = if l = k ∧ found = .corrupt then 1 else 0 := by
  cases told with
  | pending | missing => simp
  | corrupt tells => simp [tells.countP_same (by simp)]
  | @unreadable r tells =>
    have silent : ¬r.Tells condemning l := tells.not_tells (by simp) (by simp) (by decide) l
    simp [silent]

theorem Told.countP_sparing {found : Found} (told : Told k found reports) (l : Key) :
    reports.countP (fun r => r.Tells sparing l) = if l = k ∧ found = .unreadable then 1 else 0 := by
  cases told with
  | pending | missing => simp
  | @corrupt r tells =>
    have silent : ¬r.Tells sparing l := tells.not_tells (by simp) (by simp) (by decide) l
    simp [silent]
  | unreadable tells => simp [tells.countP_same (by simp)]

theorem Told.kind {found : Found} (told : Told k found reports) :
    ∀ r ∈ reports, r.kind = .payloadLoadFail := by
  cases told with
  | pending | missing => simp
  | corrupt tells | unreadable tells => exact List.forall_mem_singleton.mpr tells.1

/-- What comes of loading these keys. -/
structure Loads (q : Queue) (ks : List Key) (out : Queue × List Report × Nat) : Prop where
  /-- The deliveries that are new come in, each in its place. -/
  memory : ∀ e, out.1.pending e =
    ((q.newcomers (q.store.deliveriesUnder ks)).filter fun p => p.endpoint == e).foldl
      (fun ps p => insertSorted p ps) (q.pending e)
  /-- What was in memory stays, unchanged and in its order. -/
  kept : ∀ e, (q.pending e).Sublist (out.1.pending e)
  number : out.2.2 = (q.newcomers (q.store.deliveriesUnder ks)).length
  /-- The files that hold no delivery are gone, and nothing else is. -/
  disk : out.1.store = q.store.sift fun name =>
    decide (∀ k ∈ ks, q.store.under k = .corrupt → name ≠ k.name)
  /-- Of each file that was deleted one report tells that it held no delivery. -/
  condemned : ∀ k, out.2.1.countP (fun r => r.Tells condemning k) =
    if k ∈ ks ∧ q.store.under k = .corrupt then 1 else 0
  /-- What could not be read is reported whenever it is listed. -/
  spared : ∀ k, out.2.1.countP (fun r => r.Tells sparing k) =
    if q.store.under k = .unreadable then ks.count k else 0
  /-- Nothing else fails. -/
  failures : ∀ r ∈ out.2.1, r.kind = .payloadLoadFail

variable {out : Queue × List Report × Nat}

theorem Loads.nil (q : Queue) : q.Loads [] (q, [], 0) where
  memory e := rfl
  kept e := .refl _
  number := rfl
  disk := (q.store.sift_all (by simp)).symm
  condemned k := by simp
  spared k := by simp
  failures := by simp

/-- Loading a key and then others does what loading all of them does. -/
theorem Loads.cons (one : LoadsOne q k (q', n)) (told : Told k (q.store.under k) reports)
    (rest : q'.Loads ks out) :
    q.Loads (k :: ks) (out.1, reports ++ out.2.1, n + out.2.2) where
  memory e := by
    show out.1.pending e = _
    rw [rest.memory]
    rcases one.brings ks with ⟨p, new, rfl, _, news⟩ | ⟨entries, _, news⟩
    · rw [news, pending_remember_of_new new]
      by_cases home : e = p.endpoint
      · simp [home]
      · simp [home, Ne.symm home]
    · rw [news, pending, pending, entries]
  kept e := by
    refine .trans ?_ (rest.kept e)
    rcases one.brings ks with ⟨p, new, rfl, _, _⟩ | ⟨entries, _, _⟩
    · rw [pending_remember_of_new new]
      split
      · exact sublist_insertSorted p _
      · exact .refl _
    · rw [pending, pending, entries]
  number := by
    rw [rest.number]
    rcases one.brings ks with ⟨p, _, _, rfl, news⟩ | ⟨_, rfl, news⟩
    · rw [news, List.length_cons, Nat.add_comm]
    · rw [news, Nat.zero_add]
  disk := by
    show out.1.store = _
    rw [rest.disk]
    simp only [one.under]
    rw [one.disk, Store.sift_sift]
    refine congrArg q.store.sift (funext fun name => ?_)
    rw [← Bool.decide_and, decide_eq_decide, List.forall_mem_cons]
    refine and_congr_right fun first => forall₂_congr fun l _ => ?_
    by_cases gone : l = k ∧ q.store.under k = .corrupt
    · obtain ⟨rfl, there⟩ := gone
      simp [there, first there]
    · rw [if_neg gone]
  condemned l := by
    show (reports ++ out.2.1).countP _ = _
    rw [List.countP_append, told.countP_condemning, rest.condemned, one.under]
    by_cases gone : l = k ∧ q.store.under k = .corrupt
    · -- what was deleted is missing later, so a key that is listed twice is reported once
      obtain ⟨rfl, there⟩ := gone
      simp [there]
    · have other : l ∈ ks ∧ q.store.under l = .corrupt ↔
          l ∈ k :: ks ∧ q.store.under l = .corrupt := by
        rw [List.mem_cons]
        exact and_congr_left fun there =>
          (or_iff_right fun same => gone ⟨same, same ▸ there⟩).symm
      rw [if_neg gone, if_neg gone, Nat.zero_add]
      exact if_congr other rfl rfl
  spared l := by
    show (reports ++ out.2.1).countP _ = _
    rw [List.countP_append, told.countP_sparing, rest.spared, one.under]
    by_cases same : l = k
    · subst same
      cases q.store.under l <;> simp [Nat.add_comm]
    · simp [same, Ne.symm same]
  failures := List.forall_mem_append.mpr ⟨told.kind, rest.failures⟩

/-- What is in memory after loading was there or in a file. -/
theorem Loads.mem_pending (done : q.Loads ks out) {e : Endpoint} {x : Pending}
    (held : x ∈ out.1.pending e) : x ∈ q.pending e ∨ ∃ k, q.store.under k = .pending x := by
  rw [done.memory, mem_foldl_insertSorted] at held
  refine held.symm.imp_right fun new => ?_
  obtain ⟨k, _, there⟩ :=
    List.mem_filterMap.mp (newcomers_subset _ _ (List.mem_filter.mp new).1)
  cases under : q.store.under k <;> rw [under] at there <;> cases there
  exact ⟨k, under⟩

theorem loads (q : Queue) (ks : List Key) : q.Loads ks (q.loadKeys ks) := by
  induction ks generalizing q with
  | nil => exact .nil q
  | cons k ks ih =>
    obtain ⟨q', n, reports, one, told, result⟩ := loadKeys_cons q k ks
    rw [result]
    exact .cons one told (ih q')

/-- A queue has what it loaded. -/
theorem contains_loadKeys {p : Pending} (listed : k ∈ ks) (there : q.store.under k = .pending p) :
    (q.loadKeys ks).1.contains p.endpoint p.id = true := by
  induction ks generalizing q with
  | nil => cases listed
  | cons l ks ih =>
    obtain ⟨q', n, reports, one, _, result⟩ := loadKeys_cons q l ks
    rw [result]
    rcases List.mem_cons.mp listed with rfl | later
    · have here : q'.contains p.endpoint p.id = true := by
        cases one with
        | adds there' =>
          cases there.symm.trans there'
          simp [contains_remember, Pending.label]
        | knows there' known =>
          cases there.symm.trans there'
          exact known
        | deletes there' => cases there.symm.trans there'
        | passes there' => rcases there' with there' | there' <;> cases there.symm.trans there'
      -- loading the other keys takes nothing out of memory
      obtain ⟨x, member, same⟩ := contains_iff.mp here
      exact contains_iff.mpr ⟨x, ((loads q' ks).kept _).subset member, same⟩
    · refine ih later ?_
      rw [one.under, there, if_neg]
      rintro ⟨rfl, corrupt⟩
      cases there.symm.trans corrupt

/-- Where every delivery is known and every file holds one, loading does nothing. -/
theorem loadKeys_of_settled (settled : ∀ k ∈ ks, q.store.under k ≠ .corrupt ∧
    ∀ p, q.store.under k = .pending p → q.contains p.endpoint p.id = true) :
    (q.loadKeys ks).1 = q ∧ (q.loadKeys ks).2.2 = 0 := by
  induction ks with
  | nil => exact ⟨rfl, rfl⟩
  | cons k ks ih =>
    obtain ⟨⟨whole, known⟩, later⟩ := List.forall_mem_cons.mp settled
    obtain ⟨q', n, reports, one, _, result⟩ := loadKeys_cons q k ks
    obtain ⟨same, none_⟩ := ih later
    rw [result]
    cases one with
    | adds there new => rw [known _ there] at new; cases new
    | knows | passes => exact ⟨same, by rw [none_]⟩
    | deletes there => exact absurd there whole

theorem Loads.under (done : q.Loads ks out) (listed : k ∈ ks) :
    out.1.store.under k = if q.store.under k = .corrupt then .missing else q.store.under k := by
  rw [done.disk]
  split
  case isTrue corrupt =>
    exact Store.under_sift_of_corrupt corrupt (by simpa using ⟨k, listed, corrupt, rfl⟩)
  case isFalse whole =>
    refine Store.under_sift (decide_eq_true fun l _ corrupt same => ?_)
    exact whole (Key.name_injective same ▸ corrupt)

/-- Loading what a directory holds. The keys are loaded in the order of listing, whatever there is
under them and in memory: the deliveries that are new come in, files that hold no delivery are
reported and deleted, what cannot be read is reported and left, and what was in memory stays. A
second time there is nothing to bring in and nothing to delete. -/
theorem load_brings_in_new (q : Queue) : q.Loads q.store.stored.1 q.load ∧
    q.load.1.load.1 = q.load.1 ∧ q.load.1.load.2.2 = 0 := by
  have done := loads q q.store.stored.1
  have silent (whats : List String) (known : whats ⊆ condemning ++ sparing) (k : Key) :
      q.store.stored.2.countP (fun r => r.Tells whats k) = 0 := by
    rw [List.countP_eq_zero]
    intro r member
    simpa using (q.store.stored_silent r member).2 whats known k
  have reports : q.load.2.1 = q.store.stored.2 ++ (q.loadKeys q.store.stored.1).2.1 := rfl
  refine ⟨{ done with condemned := fun k => ?_, spared := fun k => ?_, failures := ?_ },
    loadKeys_of_settled fun k listed => ?_⟩
  · rw [reports, List.countP_append, silent condemning (by simp), Nat.zero_add, done.condemned]
  · rw [reports, List.countP_append, silent sparing (by simp), Nat.zero_add, done.spared]
  · exact List.forall_mem_append.mpr
      ⟨fun r member => (q.store.stored_silent r member).1, done.failures⟩
  · have store : q.load.1.store = _ := done.disk
    have before : k ∈ q.store.stored.1 := by
      rw [store] at listed
      exact q.store.stored_sift _ listed
    have under : q.load.1.store.under k = _ := done.under before
    rw [under]
    split
    case isTrue => simp
    case isFalse whole => exact ⟨whole, fun p there => contains_loadKeys before there⟩

end Queue

end Outbox
