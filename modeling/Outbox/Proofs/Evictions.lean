import Outbox.Proofs.StoreEntries

/-! # What a quota takes meanwhile

A store enforces its quota whenever it has stored a payload, so it takes payloads before others
come. Yet in the end it took what it would have taken if it had waited: what was behind the first
few stays behind them when more come, and what was taken leaves enough behind it to keep out what
ranks lower. This holds of any directory, with names that are read as a key of another name and
cannot be deleted under it.
-/

namespace Outbox.Storage

/-! ## Slots -/

/-- What a quota sees of an entry: the key that its name is read as, and whether the entry can be
deleted under this key. -/
structure Slot where
  key : Key
  loose : Bool
  deriving DecidableEq

/-- The slot of a payload. -/
def Slot.ofKey (k : Key) : Slot := ⟨k, true⟩

theorem Slot.eq_ofKey_iff {x : Slot} {k : Key} : x = ofKey k ↔ x.loose = true ∧ x.key = k := by
  obtain ⟨key, loose⟩ := x
  simp [ofKey, and_comm]

namespace Slots

variable {xs ys : List Slot} {x : Slot} {k l : Key} {ks ks' : List Key} {max : Nat}

/-- How many slots are kept rather than one with this key, the one itself included. -/
def rank (xs : List Slot) (l : Key) : Nat := xs.countP (·.key.outlasts l)

/-- The slot can be deleted and is behind the first `max`. -/
def doomed (max : Nat) (xs : List Slot) (x : Slot) : Bool := x.loose && decide (max < rank xs x.key)

/-- The slots that a quota leaves. -/
def trim (max : Nat) (xs : List Slot) : List Slot := xs.filter fun x => !doomed max xs x

/-- The slots with the one of a payload. -/
def write (k : Key) (xs : List Slot) : List Slot :=
  xs.filter (fun x => x != .ofKey k) ++ [.ofKey k]

/-- The slots with those of some payloads. -/
def fill (xs : List Slot) (ks : List Key) : List Slot :=
  xs.filter (fun x => !(x.loose && decide (x.key ∈ ks))) ++ ks.map Slot.ofKey

/-- No two slots can be deleted under one key. -/
def Once (xs : List Slot) : Prop := (xs.filter (·.loose)).Nodup

/-- The quota takes the key: it is there, behind the first `max`. -/
def Over (max : Nat) (xs : List Slot) (l : Key) : Prop := (∃ x ∈ xs, x.key = l) ∧ max < rank xs l

theorem doomed_iff : doomed max xs x = true ↔ x.loose = true ∧ max < rank xs x.key := by
  simp [doomed]

theorem mem_trim : x ∈ trim max xs ↔ x ∈ xs ∧ doomed max xs x = false := by
  simp [trim]

theorem mem_write : x ∈ write k xs ↔ (x ∈ xs ∧ x ≠ .ofKey k) ∨ x = .ofKey k := by
  simp [write]

theorem Once.filter (once : Once xs) (p : Slot → Bool) : Once (xs.filter p) := by
  unfold Once at *
  rw [List.filter_comm]
  exact once.filter _

theorem Once.append (once : Once xs) (nodup : ks.Nodup)
    (apart : ∀ x ∈ xs, x.loose = true → x.key ∉ ks) : Once (xs ++ ks.map Slot.ofKey) := by
  have loose : (ks.map Slot.ofKey).filter (·.loose) = ks.map Slot.ofKey :=
    List.filter_eq_self.mpr (by simp [Slot.ofKey])
  have injective : Function.Injective Slot.ofKey := fun a b same => (Slot.mk.inj same).1
  rw [Once, List.filter_append, loose, List.nodup_append]
  refine ⟨once, nodup.map injective, ?_⟩
  rintro x member y inside rfl
  obtain ⟨l, listed, rfl⟩ := List.mem_map.mp inside
  exact apart _ (List.mem_filter.mp member).1 rfl listed

theorem Once.fill (once : Once xs) (nodup : ks.Nodup) : Once (fill xs ks) := by
  refine Once.append (once.filter _) nodup fun x member loose listed => ?_
  simpa [loose, listed] using (List.mem_filter.mp member).2

/-- A payload has one slot at most. -/
theorem Once.length_own_le (once : Once xs) (k : Key) :
    (xs.filter fun x => !(x != .ofKey k)).length ≤ 1 := by
  have most : (xs.filter (·.loose)).count (.ofKey k) ≤ 1 :=
    List.nodup_iff_count_le_one.mp once _
  rw [List.count_filter rfl, List.count_eq_length_filter] at most
  simpa [bne] using most

theorem rank_mono (better : k.outlasts l = true) (xs : List Slot) : rank xs k ≤ rank xs l :=
  List.countP_mono_left fun _ _ first => Key.outlasts_trans first better

theorem rank_perm (perm : xs.Perm ys) (l : Key) : rank xs l = rank ys l := perm.countP_eq _

theorem over_perm (perm : xs.Perm ys) : Over max xs l ↔ Over max ys l := by
  simp only [Over, rank_perm perm, perm.mem_iff]

theorem rank_write (k l : Key) (xs : List Slot) : rank (write k xs) l =
    rank (xs.filter fun x => x != .ofKey k) l + if k.outlasts l then 1 else 0 := by
  rw [rank, write, List.countP_append, List.countP_singleton]
  rfl

/-- Payloads that are written one after the other are all there. -/
theorem write_fill (new : k ∉ ks) (xs : List Slot) :
    write k (fill xs ks) = fill xs (ks ++ [k]) := by
  have apart : (ks.map Slot.ofKey).filter (fun x => x != Slot.ofKey k) = ks.map Slot.ofKey := by
    refine List.filter_eq_self.mpr fun x member => bne_iff_ne.mpr fun same => ?_
    obtain ⟨l, inside, rfl⟩ := List.mem_map.mp member
    exact new ((Slot.mk.inj same).1 ▸ inside)
  have rest : (xs.filter fun x => !(x.loose && decide (x.key ∈ ks))).filter
      (fun x => x != Slot.ofKey k) =
      xs.filter fun x => !(x.loose && decide (x.key ∈ ks ++ [k])) := by
    rw [List.filter_filter]
    refine List.filter_congr fun x _ => ?_
    rw [Bool.eq_iff_iff]
    cases loose : x.loose <;> simp [Slot.eq_ofKey_iff, loose, and_comm]
  rw [write, fill, List.filter_append, apart, rest, fill, List.map_append, List.append_assoc]
  rfl

theorem fill_perm (perm : ks.Perm ks') (xs : List Slot) : (fill xs ks).Perm (fill xs ks') := by
  have same : (fun x : Slot => !(x.loose && decide (x.key ∈ ks))) =
      fun x => !(x.loose && decide (x.key ∈ ks')) := by simp only [perm.mem_iff]
  rw [fill, fill, same]
  exact (perm.map _).append_left _

/-! ## To enforce a quota after each payload -/

/-- Of some keys there is one that is kept rather than each of them. -/
theorem exists_best (some_ : ks ≠ []) : ∃ k ∈ ks, ∀ l ∈ ks, k.outlasts l = true := by
  induction ks with
  | nil => exact absurd rfl some_
  | cons k ks ih =>
    rcases ks.eq_nil_or_concat with rfl | ⟨_, _, rfl⟩
    · exact ⟨k, by simp, by simp [Key.outlasts_refl]⟩
    · obtain ⟨best, member, beats⟩ := ih (by simp)
      rcases best.outlasts_total k with first | first
      · exact ⟨best, List.mem_cons_of_mem _ member, List.forall_mem_cons.mpr ⟨first, beats⟩⟩
      · refine ⟨k, List.mem_cons_self, List.forall_mem_cons.mpr ⟨k.outlasts_refl, ?_⟩⟩
        exact fun l inside => Key.outlasts_trans first (beats l inside)

/-- No slot that is kept rather than one with this key is taken. -/
def Spares (max : Nat) (xs : List Slot) (l : Key) : Prop :=
  ∀ x ∈ xs, doomed max xs x = true → x.key.outlasts l = false

/-- Where a slot ahead is taken, the ones behind it are behind the first few too. -/
theorem lt_rank_of_not_spares (taken : ¬Spares max xs l) : max < rank xs l := by
  simp only [Spares, not_forall, Bool.not_eq_false] at taken
  obtain ⟨x, _, gone, first⟩ := taken
  exact (doomed_iff.mp gone).2.trans_le (rank_mono first xs)

theorem rank_write_trim_of_spares (spares : Spares max xs l) (k : Key) :
    rank (write k (trim max xs)) l = rank (write k xs) l := by
  rw [rank_write, rank_write, trim, List.filter_comm, rank, rank, List.countP_filter]
  congr 1
  refine List.countP_congr fun x member => ?_
  have kept := spares x (List.mem_of_mem_filter member)
  cases gone : doomed max xs x <;> simp_all

/-- Of the slots that are taken the best one leaves enough of them ahead of it. -/
theorem lt_rank_write_trim (once : Once xs) (taken : ¬Spares max xs k) :
    max < rank (write k (trim max xs)) k := by
  have some_ : (xs.filter fun x => doomed max xs x && x.key.outlasts k).map Slot.key ≠ [] := by
    simp only [Spares, not_forall, Bool.not_eq_false] at taken
    obtain ⟨x, member, gone, first⟩ := taken
    exact List.ne_nil_of_mem (List.mem_map_of_mem
      (List.mem_filter.mpr ⟨member, by simp [gone, first]⟩))
  obtain ⟨c, listed, best⟩ := exists_best some_
  obtain ⟨x, inside, rfl⟩ := List.mem_map.mp listed
  have gone := (List.mem_filter.mp inside).2
  rw [Bool.and_eq_true] at gone
  obtain ⟨loose, behind⟩ := doomed_iff.mp gone.1
  have own : x = .ofKey x.key := Slot.eq_ofKey_iff.mpr ⟨loose, rfl⟩
  -- of the slots ahead of the best one only itself is taken, and it is there once
  have ahead : rank xs x.key ≤
      xs.countP (fun y => y.key.outlasts x.key && y != .ofKey x.key) + 1 := by
    rw [rank, List.countP_eq_countP_filter_add xs _ fun y => y != .ofKey x.key,
      List.countP_filter]
    exact Nat.add_le_add_left (List.countP_le_length.trans (once.length_own_le x.key)) _
  have left : xs.countP (fun y => y.key.outlasts x.key && y != .ofKey x.key) ≤
      rank ((trim max xs).filter fun y => y != .ofKey k) k := by
    rw [rank, List.countP_filter, trim, List.countP_filter]
    refine List.countP_mono_left fun y member first => ?_
    rw [Bool.and_eq_true, bne_iff_ne] at first
    have not_both (loose : y.loose = true) : ¬x.key.outlasts y.key = true := fun back =>
      first.2 (Slot.eq_ofKey_iff.mpr ⟨loose, Key.outlasts_antisymm first.1 back⟩)
    have other : y ≠ .ofKey k := fun same =>
      not_both (same ▸ rfl) (show x.key.outlasts y.key = true from same ▸ gone.2)
    have ahead := Key.outlasts_trans first.1 gone.2
    have stays : doomed max xs y = false := by
      rw [Bool.eq_false_iff]
      intro taken
      refine not_both (doomed_iff.mp taken).1 (best y.key ?_)
      exact List.mem_map_of_mem (List.mem_filter.mpr ⟨member, by simp [taken, ahead]⟩)
    simp [ahead, other, stays]
  rw [rank_write, if_pos k.outlasts_refl]
  omega

theorem rank_write_trim_le (k l : Key) (xs : List Slot) :
    rank (write k (trim max xs)) l ≤ rank (write k xs) l := by
  rw [rank_write, rank_write]
  exact Nat.add_le_add_right (List.Sublist.countP_le (List.filter_sublist.filter _)) _

theorem rank_le_write (once : Once xs) (k l : Key) : rank xs l ≤ rank (write k xs) l := by
  rw [rank_write, rank, List.countP_eq_countP_filter_add xs _ fun y => y != .ofKey k]
  refine Nat.add_le_add_left ?_ _
  split
  case isTrue => exact List.countP_le_length.trans (once.length_own_le k)
  case isFalse behind =>
    refine (List.countP_eq_zero.mpr fun x member => ?_).le
    obtain rfl : x = .ofKey k := by simpa using (List.mem_filter.mp member).2
    exact behind

/-- A key is behind the first few next to one more payload exactly if it was before, or is next to
this payload and what was left. -/
theorem lt_rank_write_iff (once : Once xs) (k l : Key) : max < rank (write k xs) l ↔
    max < rank xs l ∨ max < rank (write k (trim max xs)) l := by
  constructor
  · intro behind
    by_cases spares : Spares max xs l
    · exact .inr (rank_write_trim_of_spares spares k ▸ behind)
    · exact .inl (lt_rank_of_not_spares spares)
  · rintro (behind | behind)
    · exact behind.trans_le (rank_le_write once k l)
    · exact behind.trans_le (rank_write_trim_le k l xs)

/-- Likewise for the payload itself, whether it was there before or not. -/
theorem lt_rank_written_iff (once : Once xs) (k : Key) :
    max < rank (write k (trim max xs)) k ↔ max < rank (write k xs) k := by
  refine ⟨fun behind => behind.trans_le (rank_write_trim_le k k xs), fun behind => ?_⟩
  by_cases spares : Spares max xs k
  · rwa [rank_write_trim_of_spares spares k]
  · exact lt_rank_write_trim once spares

theorem trim_write (max : Nat) (k : Key) (xs : List Slot) : trim max (write k xs) =
    (xs.filter fun x => !doomed max (write k xs) x && x != .ofKey k) ++
      if doomed max (write k xs) (.ofKey k) then [] else [.ofKey k] := by
  rw [← List.filter_filter]
  show (xs.filter _ ++ [_]).filter _ = _
  rw [List.filter_append]
  cases gone : doomed max (write k xs) (.ofKey k) <;> simp [gone]

/-- To enforce a quota, write a payload and enforce it again leaves what enforcing it in the end
leaves. -/
theorem trim_write_trim (once : Once xs) (max : Nat) (k : Key) :
    trim max (write k (trim max xs)) = trim max (write k xs) := by
  have own :
      doomed max (write k (trim max xs)) (.ofKey k) = doomed max (write k xs) (.ofKey k) := by
    rw [Bool.eq_iff_iff, doomed_iff, doomed_iff]
    exact and_congr_right fun _ => lt_rank_written_iff once k
  rw [trim_write, trim_write, own]
  congr 1
  show List.filter _ (xs.filter _) = _
  rw [List.filter_filter]
  refine List.filter_congr fun x _ => ?_
  have gone : doomed max (write k xs) x =
      (doomed max xs x || doomed max (write k (trim max xs)) x) := by
    rw [Bool.eq_iff_iff, Bool.or_eq_true, doomed_iff, doomed_iff, doomed_iff, ← and_or_left,
      lt_rank_write_iff once]
  rw [gone, Bool.not_or, Bool.and_comm, ← Bool.and_assoc]

/-- And it takes the same keys. -/
theorem over_write_iff (once : Once xs) (max : Nat) (k l : Key) : Over max (write k xs) l ↔
    Over max xs l ∨ Over max (write k (trim max xs)) l := by
  constructor
  · rintro ⟨⟨x, member, rfl⟩, behind⟩
    rcases mem_write.mp member with ⟨old, other⟩ | rfl
    · by_cases before : max < rank xs x.key
      · exact .inl ⟨⟨x, old, rfl⟩, before⟩
      · have left : x ∈ trim max xs := mem_trim.mpr ⟨old, by simp [doomed, before]⟩
        exact .inr ⟨⟨x, mem_write.mpr (.inl ⟨left, other⟩), rfl⟩,
          ((lt_rank_write_iff once k x.key).mp behind).resolve_left before⟩
    · exact .inr ⟨⟨_, mem_write.mpr (.inr rfl), rfl⟩, (lt_rank_written_iff once k).mpr behind⟩
  · rintro (⟨⟨x, member, rfl⟩, behind⟩ | ⟨⟨x, member, rfl⟩, behind⟩)
    · refine ⟨⟨x, ?_, rfl⟩, (lt_rank_write_iff once k x.key).mpr (.inl behind)⟩
      rw [mem_write]
      exact (em (x = .ofKey k)).symm.imp_left fun other => ⟨member, other⟩
    · refine ⟨⟨x, ?_, rfl⟩, (lt_rank_write_iff once k x.key).mpr (.inr behind)⟩
      rw [mem_write, mem_trim] at member
      exact mem_write.mpr (member.imp_left fun old => ⟨old.1.1, old.2⟩)

end Slots

/-! ## The slots of a directory -/

open Place Slots

/-- What a quota sees of an entry: nothing if its name is read as no key. What can be deleted under
the key is a file with just the name of the key. -/
def slot? (e : String × Node) : Option Slot :=
  (Store.keyOf? e.1).map fun k => ⟨k, e.1 == k.name && fits e.1 && e.2 != .folder⟩

theorem slot?_eq_ofKey_iff {e : String × Node} {k : Key} : slot? e = some (.ofKey k) ↔
    e.1 = k.name ∧ fits k.name = true ∧ e.2 ≠ .folder := by
  unfold slot?
  rw [Option.map_eq_some_iff]
  constructor
  · rintro ⟨l, read, same⟩
    obtain ⟨rfl, loose⟩ := Slot.mk.inj same
    simp only [Bool.and_eq_true, beq_iff_eq, bne_iff_ne] at loose
    exact ⟨loose.1.1, loose.1.1 ▸ loose.1.2, loose.2⟩
  · rintro ⟨named, fit, file⟩
    exact ⟨k, named ▸ Store.keyOf?_name k, by simp [Slot.ofKey, named, fit, file]⟩

namespace Store

variable {s : Store} {k l : Key} {ks : List Key} {b : Bytes}

def slots (s : Store) : List Slot := s.place.entries.filterMap slot?

/-- The directory has one entry for each name. -/
def Distinct (s : Store) : Prop := (s.place.entries.map (·.1)).Nodup

theorem keys_eq_slots (s : Store) : s.keys = s.slots.map Slot.key := by
  rw [keys, slots, List.map_filterMap]
  refine List.filterMap_congr fun e _ => ?_
  cases read : keyOf? e.1 <;> simp [slot?, read]

theorem once_slots (distinct : s.Distinct) : Once s.slots := by
  rw [Once, List.Nodup, List.pairwise_filter, slots, List.pairwise_filterMap]
  refine (List.pairwise_map.mp distinct).imp fun {d e} differ x first y second loose _ same => ?_
  have own : x = .ofKey x.key := Slot.eq_ofKey_iff.mpr ⟨loose, rfl⟩
  rw [← same, own] at second
  rw [own] at first
  exact differ ((slot?_eq_ofKey_iff.mp first).1.trans (slot?_eq_ofKey_iff.mp second).1.symm)

/-- The slots of the entries that are not those of a key. -/
theorem filterMap_slot?_filter (es : List (String × Node)) (k : Key) :
    (es.filter fun e => slot? e != some (.ofKey k)).filterMap slot? =
      (es.filterMap slot?).filter fun x => x != .ofKey k := by
  rw [List.filterMap_filter, List.filter_filterMap]
  refine List.filterMap_congr fun e _ => ?_
  cases slot? e with
  | none => rfl
  | some x => by_cases own : x = .ofKey k <;> simp [own, Option.filter]

theorem slot?_eq_of_entry {es : List (String × Node)} (distinct : (es.map (·.1)).Nodup)
    {e : String × Node} (member : e ∈ es) : slot? e = some (.ofKey k) ↔
      e.1 = k.name ∧ fits k.name = true ∧ entry? es k.name ≠ some .folder := by
  rw [slot?_eq_ofKey_iff]
  refine and_congr_right fun named => and_congr_right fun _ => ?_
  have found : entry? es k.name = some e.2 := (entry?_eq_some_iff distinct).mpr (named ▸ member)
  simp [found]

/-- The entries of other names, where a file can be under this one. -/
theorem without_eq_filter {es : List (String × Node)} (distinct : (es.map (·.1)).Nodup)
    (fit : fits k.name = true) (free : entry? es k.name ≠ some .folder) :
    without es k.name = es.filter fun e => slot? e != some (.ofKey k) := by
  refine List.filter_congr fun e member => ?_
  have same : slot? e = some (.ofKey k) ↔ e.1 = k.name :=
    (slot?_eq_of_entry distinct member).trans (and_iff_left ⟨fit, free⟩)
  rw [Bool.eq_iff_iff, bne_iff_ne, bne_iff_ne, ne_eq, ne_eq, same]

/-- Deleting takes away the slot of the key. -/
theorem entries_delete_eq (distinct : s.Distinct) (k : Key) : (s.delete k).1.place.entries =
    s.place.entries.filter fun e => slot? e != some (.ofKey k) := by
  obtain ⟨place, max⟩ := s
  cases place with
  | absent | blocked => rfl
  | folder es =>
    have slot {e : String × Node} (member : e ∈ es) : slot? e = some (.ofKey k) ↔
        e.1 = k.name ∧ fits k.name = true ∧ entry? es k.name ≠ some .folder :=
      slot?_eq_of_entry distinct member
    -- without a file of this name there is nothing to take away
    have still (none_ : ∀ e ∈ es, slot? e ≠ some (.ofKey k)) :
        es = es.filter fun e => slot? e != some (.ofKey k) :=
      (List.filter_eq_self.mpr fun e member => bne_iff_ne.mpr (none_ e member)).symm
    simp only [delete, removeFile]
    cases fit : fits k.name with
    | false =>
      refine still fun e member own => ?_
      have fits_ := ((slot member).mp own).2.1
      rw [fit] at fits_
      cases fits_
    | true =>
      cases held : entry? es k.name with
      | none =>
        refine still fun e member own => ?_
        have found : entry? es e.1 = some e.2 := (entry?_eq_some_iff distinct).mpr member
        rw [((slot member).mp own).1, held] at found
        cases found
      | some node =>
        cases node with
        | folder => exact still fun e member own => ((slot member).mp own).2.2 held
        | file content => exact without_eq_filter distinct fit (by simp [held])

theorem slots_delete (distinct : s.Distinct) (k : Key) :
    (s.delete k).1.Distinct ∧ (s.delete k).1.slots = s.slots.filter fun x => x != .ofKey k := by
  rw [Distinct, slots, entries_delete_eq distinct, filterMap_slot?_filter]
  exact ⟨distinct.sublist (List.filter_sublist.map _), rfl⟩

theorem slots_deleteAll (distinct : s.Distinct) (ks : List Key) : (s.deleteAll ks).1.Distinct ∧
    (s.deleteAll ks).1.slots = s.slots.filter fun x => !(x.loose && decide (x.key ∈ ks)) := by
  induction ks generalizing s with
  | nil => exact ⟨distinct, (List.filter_eq_self.mpr (by simp)).symm⟩
  | cons k ks ih =>
    obtain ⟨distinct, first⟩ := slots_delete distinct k
    obtain ⟨distinct, rest⟩ := ih distinct
    refine ⟨distinct, ?_⟩
    show (deleteAll (s.delete k).1 ks).1.slots = _
    rw [rest, first, List.filter_filter]
    refine List.filter_congr fun x _ => ?_
    rw [Bool.eq_iff_iff]
    cases loose : x.loose <;> simp [Slot.eq_ofKey_iff, loose, and_comm]

/-- A quota leaves the slots among the first few, and takes the keys behind them. -/
theorem slots_enforce (distinct : s.Distinct) (max : Nat) : (s.enforce max).1.Distinct ∧
    (s.enforce max).1.slots = trim max s.slots ∧
      ∀ l, l ∈ (s.enforce max).2.2 ↔ Over max s.slots l := by
  have counted (l : Key) : s.keys.countP (·.outlasts l) = rank s.slots l := by
    rw [keys_eq_slots, List.countP_map]
    rfl
  have taken (l : Key) : l ∈ (s.enforce max).2.2 ↔ Over max s.slots l := by
    constructor
    · intro gone
      have member := mem_keys_of_mem_enforce gone
      refine ⟨List.mem_map.mp (s.keys_eq_slots ▸ member), ?_⟩
      rw [← counted, ← mem_enforce member]
      exact gone
    · rintro ⟨there, behind⟩
      have member : l ∈ s.keys := s.keys_eq_slots ▸ List.mem_map.mpr there
      rw [mem_enforce member, counted]
      exact behind
  obtain ⟨distinct, left⟩ := slots_deleteAll distinct (s.enforce max).2.2
  rw [← enforce_place] at distinct left
  refine ⟨distinct, ?_, taken⟩
  rw [left, trim]
  refine List.filter_congr fun x member => ?_
  have here : x.key ∈ (s.enforce max).2.2 ↔ max < rank s.slots x.key := by
    rw [taken]
    exact and_iff_right ⟨x, member, rfl⟩
  simp only [doomed, here]

/-! ## Storing -/

theorem slots_written (distinct : s.Distinct) (takes : s.Takes k) (b : Bytes) :
    (s.written k b).Distinct ∧ (s.written k b).slots = Slots.write k s.slots := by
  have own : slot? (k.name, .file (.gzip b)) = some (.ofKey k) :=
    slot?_eq_ofKey_iff.mpr ⟨rfl, takes.fit, by simp⟩
  refine ⟨withEntry_distinct distinct _ _, ?_⟩
  show (without s.place.entries k.name ++ [_]).filterMap slot? = _
  rw [without_eq_filter distinct takes.fit takes.free, List.filterMap_append,
    filterMap_slot?_filter, List.filterMap_cons_some own]
  rfl

theorem maxEntries_deleteAll (s : Store) (ks : List Key) :
    (s.deleteAll ks).1.maxEntries = s.maxEntries := by
  induction ks generalizing s with
  | nil => rfl
  | cons k ks ih => exact (ih _).trans (s.maxEntries_delete k)

theorem maxEntries_putBytes (s : Store) (k : Key) (b : Bytes) :
    (s.putBytes k b).1.maxEntries = s.maxEntries := by
  simp only [putBytes, put]
  split
  · rfl
  · rw [enforce_place]
    exact maxEntries_deleteAll _ _

/-- A path that cannot be a directory stays so. -/
theorem putBytes_blocked_iff (s : Store) (k : Key) (b : Bytes) :
    (s.putBytes k b).1.place = .blocked ↔ s.place = .blocked := by
  refine ⟨not_imp_not.mp fun open_ => putBytes_open open_ k b, fun blocked => ?_⟩
  simp [putBytes, put, write, create, blocked]

/-- Where no file can be under the key, storing changes nothing. -/
theorem putBytes_of_not_takes (refuses : ¬s.Takes k) (b : Bytes) :
    (∃ e, (s.putBytes k b).2.2 = .error e) ∧
      (s.putBytes k b).1.place.entries = s.place.entries := by
  rcases s.putBytes_eq k b with ⟨fit, reports, done⟩ | ⟨failed, same, _⟩
  · refine absurd ⟨fit, fun blocked => ?_, fun folder => ?_⟩ refuses
    · simp [putBytes, put, write, create, blocked] at done
    · have ok : (s.putBytes k b).2.2.isOk = true := by rw [done]; rfl
      obtain ⟨place, max⟩ := s
      cases place with
      | absent | blocked => cases folder
      | folder es =>
        have folder : entry? es k.name = some .folder := folder
        simp [putBytes, put, write, create, Draft.ofBytes, Draft.payload?, putFile, fit, folder,
          Except.isOk, Except.toBool] at ok
  · exact ⟨failed, same⟩

/-- Storing a payload adds its slot and enforces the quota. -/
theorem slots_putBytes (distinct : s.Distinct) (takes : s.Takes k) (b : Bytes) :
    ∃ gone, (s.putBytes k b).2.2 = .ok gone ∧ (s.putBytes k b).1.Distinct ∧
      (s.putBytes k b).1.slots = trim s.maxEntries (Slots.write k s.slots) ∧
      ∀ l, l ∈ gone ↔ Over s.maxEntries (Slots.write k s.slots) l := by
  obtain ⟨reports, done⟩ := takes.putBytes_eq b
  obtain ⟨distinct, filled⟩ := slots_written distinct takes b
  obtain ⟨distinct, left, taken⟩ := slots_enforce distinct s.maxEntries
  rw [filled] at left taken
  exact ⟨_, by rw [done], by rw [done]; exact distinct, by rw [done]; exact left, taken⟩

end Store

end Outbox.Storage
