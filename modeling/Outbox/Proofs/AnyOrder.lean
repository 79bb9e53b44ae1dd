import Outbox.Proofs.BoundedMap

/-! # The quota in any order

What a quota leaves depends on which payloads there are, and neither on the order in which they came
nor on the one in which the directory has them. Two orders of keys carry this. In each of them only
a key itself stands where it stands, so a set of keys is sorted in one way; and what is not among
the first few of some keys is not among the first few of more.
-/

namespace Outbox.Storage

/-! ## The orders are total -/

namespace Key

variable {ks ls : List Key}

instance : Std.TransCmp naturalOrder :=
  inferInstanceAs (Std.TransCmp (compareLex (compareOn (·.kind.rank))
    (compareLex (compareOn (·.timestamp.val)) (compareOn fun k : Key => k.id))))

instance : Std.TransCmp retentionOrder :=
  inferInstanceAs (Std.TransCmp (compareLex (compareOn (·.kind.rank))
    (compareLex (fun a b => compareOn (·.timestamp.val) b a) (compareOn fun k : Key => k.id))))

instance : Std.LawfulEqCmp naturalOrder where
  eq_of_compare {a b} same := by
    have before : (naturalOrder a b).isLE = true := by rw [same]; rfl
    have swapped : naturalOrder b a = (naturalOrder a b).swap := Std.OrientedCmp.eq_swap
    have after : (naturalOrder b a).isLE = true := by rw [swapped, same]; rfl
    exact antisymm (isLE_naturalOrder.mp before) (isLE_naturalOrder.mp after)

instance : Std.LawfulEqCmp retentionOrder where
  eq_of_compare {a b} same := by
    have before : a.outlasts b = true := by rw [outlasts, same]; rfl
    have swapped : retentionOrder b a = (retentionOrder a b).swap := Std.OrientedCmp.eq_swap
    have after : b.outlasts a = true := by rw [outlasts, swapped, same]; rfl
    exact outlasts_antisymm before after

theorem sortNatural_eq_of_perm (perm : ks.Perm ls) : sortNatural ks = sortNatural ls := by
  have same : (sortNatural ks).Perm (sortNatural ls) :=
    (List.mergeSort_perm _ _).trans (perm.trans (List.mergeSort_perm _ _).symm)
  exact same.eq_of_pairwise' (sortNatural_sorted ks) (sortNatural_sorted ls)

theorem sortRetention_keptBefore (ks : List Key) : (sortRetention ks).Pairwise KeptBefore :=
  (sortRetention_sorted ks).imp outlasts_iff_keptBefore.mp

theorem sortRetention_eq_of_perm (perm : ks.Perm ls) : sortRetention ks = sortRetention ls := by
  have same : (sortRetention ks).Perm (sortRetention ls) :=
    (List.mergeSort_perm _ _).trans (perm.trans (List.mergeSort_perm _ _).symm)
  exact same.eq_of_pairwise' (sortRetention_keptBefore ks) (sortRetention_keptBefore ls)

theorem mem_sortRetention {k : Key} : k ∈ sortRetention ks ↔ k ∈ ks :=
  (List.mergeSort_perm _ _).mem_iff

end Key

/-! ## The first few -/

/-- What came after the first few makes no difference to the first few once there is one more. -/
theorem take_orderedInsert_take {α : Type} (r : α → α → Prop) [DecidableRel r] (a : α)
    (l : List α) (n : Nat) :
    ((l.take n).orderedInsert r a).take n = (l.orderedInsert r a).take n := by
  induction l generalizing n with
  | nil => rw [List.take_nil]
  | cons b l ih =>
    cases n with
    | zero => rfl
    | succ n =>
      rw [List.take_succ_cons, List.orderedInsert_cons, List.orderedInsert_cons]
      split
      · have rest : (b :: l.take n).take n = (b :: l).take n := by
          rw [← List.take_succ_cons, List.take_take, Nat.min_eq_left (Nat.le_succ n)]
        rw [List.take_succ_cons, List.take_succ_cons, rest]
      · rw [List.take_succ_cons, List.take_succ_cons, ih]

/-- What is dropped in two steps is what is dropped in one. -/
theorem drop_take_append_drop {α : Type} (l : List α) (n max : Nat) :
    (l.take n).drop max ++ l.drop n = l.drop (min n max) := by
  rcases Nat.le_total n max with fewer | more
  · rw [Nat.min_eq_left fewer,
      List.drop_eq_nil_of_le ((List.length_take_le _ _).trans fewer), List.nil_append]
  · have rest : l.drop n = (l.drop max).drop (n - max) := by
      rw [List.drop_drop, Nat.add_sub_cancel' more]
    rw [Nat.min_eq_right more, List.drop_take, rest, List.take_append_drop]

namespace Stock

variable {m : Stock} {k : Key} {b : Bytes} {es : List (Key × Bytes)}

theorem lookup_without (ks : List Key) :
    (m.without ks).lookup k = if k ∈ ks then none else m.lookup k := by
  induction ks generalizing m with
  | nil => rfl
  | cons l ks ih =>
    change (without (m.erase l) ks).lookup k = _
    rw [ih]
    by_cases same : k = l
    · subst same
      simp
    · simp [same]

theorem lookup_keep (max : Nat) :
    (m.keep max).lookup k = if k ∈ m.ranked.take max then m.lookup k else none := by
  by_cases kept : k ∈ m.keep max
  · rw [if_pos (mem_keep.mp kept), keep, lookup_without, if_neg ((mem_without _).mp kept).2]
  · rw [if_neg fun first => kept (mem_keep.mpr first), Finmap.lookup_eq_none]
    exact kept

theorem ranked_keep (max : Nat) : (m.keep max).ranked = m.ranked.take max := by
  refine sort_eq_of_mem ?_ (fun k => ?_) ?_
  · exact (Finset.sort_nodup _ _).sublist (List.take_sublist _ _)
  · rw [Finmap.mem_keys, mem_keep]
  · exact (Finset.pairwise_sort _ _).sublist (List.take_sublist _ _)

/-- To keep some and then some is to keep the fewer ones. -/
theorem keep_keep (n max : Nat) : (m.keep n).keep max = m.keep (min n max) := by
  refine Finmap.ext_lookup fun k => ?_
  have fewer : (m.ranked.take n).take max = m.ranked.take (min n max) := by
    rw [List.take_take, Nat.min_comm]
  rw [lookup_keep, ranked_keep, fewer, lookup_keep, lookup_keep]
  split
  · rename_i kept
    have first : k ∈ m.ranked.take n := List.mem_of_mem_take (fewer ▸ kept)
    rw [if_pos first]
  · rfl

theorem ranked_insert (fresh : k ∉ m) (b : Bytes) :
    Stock.ranked (m.insert k b) = m.ranked.orderedInsert Key.KeptBefore k := by
  have perm := List.perm_orderedInsert Key.KeptBefore k m.ranked
  refine sort_eq_of_mem ?_ (fun l => ?_) ((Finset.pairwise_sort _ _).orderedInsert _ _)
  · rw [perm.nodup_iff, List.nodup_cons, mem_ranked]
    exact ⟨fresh, Finset.sort_nodup _ _⟩
  · rw [perm.mem_iff, List.mem_cons, mem_ranked, Finmap.mem_keys, Finmap.mem_insert]

/-- What was not kept would not be kept next to one more either. -/
theorem keep_insert_keep (fresh : k ∉ m) (b : Bytes) (max : Nat) :
    Stock.keep ((m.keep max).insert k b) max = Stock.keep (m.insert k b) max := by
  have fresh' : k ∉ m.keep max := fun kept => fresh ((mem_without _).mp kept).1
  refine Finmap.ext_lookup fun l => ?_
  rw [lookup_keep, lookup_keep, ranked_insert fresh', ranked_insert fresh, ranked_keep,
    take_orderedInsert_take]
  by_cases first : l ∈ (m.ranked.orderedInsert Key.KeptBefore k).take max
  · rw [if_pos first, if_pos first]
    by_cases same : l = k
    · rw [same, Finmap.lookup_insert, Finmap.lookup_insert]
    · -- what is among the first few next to `k` was among them without it
      rw [← take_orderedInsert_take] at first
      have kept : l ∈ m.ranked.take max :=
        ((List.mem_orderedInsert _).mp (List.mem_of_mem_take first)).resolve_left same
      rw [Finmap.lookup_insert_of_ne _ same, Finmap.lookup_insert_of_ne _ same, lookup_keep,
        if_pos kept]
  · rw [if_neg first, if_neg first]

/-- The stock with these payloads as well. -/
def fill (m : Stock) (es : List (Key × Bytes)) : Stock :=
  es.foldl (fun m e => m.insert e.1 e.2) m

/-- The stock after these payloads, when the quota is enforced after each of them. -/
def fillKeeping (max : Nat) (m : Stock) (es : List (Key × Bytes)) : Stock :=
  es.foldl (fun m e => Stock.keep (m.insert e.1 e.2) max) m

/-- To enforce the quota after each payload is to enforce it once in the end. -/
theorem fillKeeping_keep (max : Nat) (once : (es.map (·.1)).Nodup)
    (fresh : ∀ e ∈ es, e.1 ∉ m) : fillKeeping max (m.keep max) es = (m.fill es).keep max := by
  -- each payload joins the stock from which the first few were kept
  induction es generalizing m with
  | nil => rfl
  | cons e es ih =>
    obtain ⟨new, once⟩ := List.nodup_cons.mp once
    have still : ∀ f ∈ es, f.1 ∉ m.insert e.1 e.2 := by
      intro f member inside
      rcases Finmap.mem_insert.mp inside with same | old
      · exact new (List.mem_map.mpr ⟨f, member, same⟩)
      · exact fresh f (List.mem_cons_of_mem _ member) old
    have first := keep_insert_keep (fresh e (by simp)) e.2 max
    change fillKeeping max (Stock.keep ((m.keep max).insert e.1 e.2) max) es = _
    rw [first]
    exact ih once still

theorem fillKeeping_empty (max : Nat) (once : (es.map (·.1)).Nodup) :
    fillKeeping max ∅ es = (fill ∅ es).keep max := by
  have empty : Stock.keep ∅ max = ∅ := by
    refine Finmap.ext_lookup fun k => ?_
    rw [lookup_keep, Finmap.lookup_empty, ite_self]
  rw [← fillKeeping_keep max once fun e _ => Finmap.notMem_empty, empty]

theorem lookup_fill (once : (es.map (·.1)).Nodup) : (m.fill es).lookup k = some b ↔
    (k, b) ∈ es ∨ (k ∉ es.map (·.1) ∧ m.lookup k = some b) := by
  induction es generalizing m with
  | nil => simp [fill]
  | cons e es ih =>
    obtain ⟨new, once⟩ := List.nodup_cons.mp once
    change (fill (m.insert e.1 e.2) es).lookup k = some b ↔ _
    rw [ih once]
    by_cases same : k = e.1
    · subst same
      have apart : (e.1, b) ∉ es := fun member => new (List.mem_map.mpr ⟨_, member, rfl⟩)
      simp [new, apart, Prod.ext_iff, eq_comm]
    · have differ : (k, b) ≠ e := fun equal => same (congrArg Prod.fst equal)
      simp [same, differ]

theorem ranked_fill (once : (es.map (·.1)).Nodup) :
    (fill ∅ es).ranked = Key.sortRetention (es.map (·.1)) := by
  refine sort_eq_of_mem ?_ (fun k => ?_) (Key.sortRetention_keptBefore _)
  · exact (List.mergeSort_perm _ _).nodup_iff.mpr once
  · rw [Key.mem_sortRetention, Finmap.mem_keys]
    simp [Finmap.mem_iff, lookup_fill once]

theorem lookup_keep_fill (max : Nat) (once : (es.map (·.1)).Nodup) :
    ((fill ∅ es).keep max).lookup k = some b ↔
      (k, b) ∈ es ∧ k ∈ (Key.sortRetention (es.map (·.1))).take max := by
  rw [lookup_keep, ranked_fill once]
  split
  · rename_i kept
    rw [lookup_fill once]
    simp [kept]
  · rename_i lost
    simp [lost]

theorem listed_eq_sortNatural (m : Stock) : m.listed = Key.sortNatural m.ranked := by
  have perm : (Key.sortNatural m.ranked).Perm m.ranked := List.mergeSort_perm _ _
  refine sort_eq_of_mem ?_ (fun k => ?_) (Key.sortNatural_sorted _)
  · exact perm.nodup_iff.mpr (Finset.sort_nodup _ _)
  · rw [perm.mem_iff, mem_ranked, Finmap.mem_keys]

end Stock

/-! ## Stores -/

open Place

variable {s : Store} {m : Stock} {limit : Nat} {others : List (String × Node)}
  {es : List (String × Node)}

theorem OwnFiles.strangers (own : OwnFiles es) : strangers es = [] := by
  refine List.filter_eq_nil_iff.mpr fun e member => ?_
  obtain ⟨k, b, _, rfl⟩ := own.own e member
  simp [Key.file, Store.keyOf?_name]

/-- The files of a store's own show a stock. -/
theorem OwnFiles.exists_shows (own : OwnFiles es) : ∃ m, Shows es m := by
  induction es using List.reverseRecOn with
  | nil => exact ⟨∅, .empty List.nodup_nil (by simp)⟩
  | append_singleton es e ih =>
    have earlier : OwnFiles es :=
      ⟨own.distinct.sublist ((List.sublist_append_left es [e]).map _),
        fun f member => own.own f (List.mem_append_left _ member)⟩
    obtain ⟨m, shown⟩ := ih earlier
    obtain ⟨k, b, fit, rfl⟩ := own.own e (by simp)
    have new : k.name ∉ es.map (·.1) := by
      have once := own.distinct
      rw [List.map_append, List.nodup_append] at once
      exact fun member => once.2.2 _ member k.name (by simp [Key.file]) rfl
    have apart : without es k.name = es := by
      refine List.filter_eq_self.mpr fun f member => bne_iff_ne.mpr fun same => ?_
      exact new (List.mem_map.mpr ⟨f, member, same⟩)
    have added := shown.insert fit b
    rw [Place.withEntry, apart] at added
    exact ⟨_, added⟩

namespace Store

/-- The store after these payloads were stored one by one. -/
def putAll (s : Store) (es : List (Key × Bytes)) : Store :=
  es.foldl (fun s e => (s.putBytes e.1 e.2).1) s

/-- The payloads that can be stored: those whose names fit. -/
def fitting (es : List (Key × Bytes)) : List (Key × Bytes) := es.filter fun e => fits e.1.name

/-- The keys that a quota admits of these payloads: the first ones in the order of keeping. -/
def admitted (max : Nat) (es : List (Key × Bytes)) : List Key :=
  (Key.sortRetention ((fitting es).map (·.1))).take max

theorem Own.represents (own : s.Own) : ∃ m, s.Represents m s.maxEntries [] := by
  obtain ⟨m, shown⟩ := own.files.exists_shows
  exact ⟨m, own.open_, rfl, own.files.strangers, shown⟩

/-- A payload whose name does not fit is not stored. -/
theorem putBytes_of_unfit {k : Key} (open_ : s.place ≠ .blocked) (unfit : fits k.name = false)
    (b : Bytes) : (s.putBytes k b).1.place ≠ .blocked ∧
      (s.putBytes k b).1.maxEntries = s.maxEntries ∧
      (s.putBytes k b).1.place.entries = s.place.entries := by
  obtain ⟨place, max⟩ := s
  cases place with
  | blocked => exact absurd rfl open_
  | absent | folder es =>
    simp [putBytes, put, write, create, Draft.ofBytes, Draft.payload?, putFile, unfit, entries]

namespace Represents

/-- The entries are those of other origin and the files of the stock. -/
theorem mem_entries (rep : s.Represents m limit others) {e : String × Node} :
    e ∈ s.place.entries ↔ e ∈ others ∨ ∃ k b, m.lookup k = some b ∧ e = k.file b := by
  have distinct := rep.files.distinct
  rw [← rep.others]
  constructor
  · intro member
    cases read : keyOf? e.1 with
    | none => exact .inl (List.mem_filter.mpr ⟨member, by simp [read]⟩)
    | some k =>
      obtain ⟨name, node⟩ := e
      have named : name = k.name := rep.files.named _ member k read
      subst named
      have found := (entry?_eq_some_iff distinct).mpr member
      rw [rep.files.own] at found
      obtain ⟨b, there, rfl⟩ := Option.map_eq_some_iff.mp found
      exact .inr ⟨k, b, there, rfl⟩
  · rintro (other | ⟨k, b, there, rfl⟩)
    · exact (List.mem_filter.mp other).1
    · refine (entry?_eq_some_iff distinct).mp ?_
      rw [rep.files.own, there]
      rfl

theorem putAll (rep : s.Represents m limit others) (es : List (Key × Bytes)) :
    (s.putAll es).Represents (m.fillKeeping limit (fitting es)) limit others := by
  induction es generalizing s m with
  | nil => exact rep
  | cons e es ih =>
    change ((s.putBytes e.1 e.2).1.putAll es).Represents _ limit others
    cases fit : fits e.1.name with
    | true =>
      rw [fitting, List.filter_cons_of_pos (by exact fit)]
      exact ih (rep.putBytes fit e.2).2
    | false =>
      rw [fitting, List.filter_cons_of_neg (by simp [fit])]
      obtain ⟨open_, max, same⟩ := putBytes_of_unfit rep.open_ fit e.2
      exact ih ⟨open_, max.trans rep.maxEntries, by rw [same, rep.others], same ▸ rep.files⟩

end Represents

theorem admitted_eq_of_perm {es order : List (Key × Bytes)} (perm : order.Perm es) (max : Nat) :
    admitted max order = admitted max es := by
  have same : ((fitting order).map (·.1)).Perm ((fitting es).map (·.1)) := (perm.filter _).map _
  rw [admitted, admitted, Key.sortRetention_eq_of_perm same]

theorem fits_of_mem_admitted {es : List (Key × Bytes)} {max : Nat} {k : Key}
    (first : k ∈ admitted max es) : fits k.name = true := by
  obtain ⟨p, member, rfl⟩ :=
    List.mem_map.mp (Key.mem_sortRetention.mp (List.mem_of_mem_take first))
  exact (List.mem_filter.mp member).2

/-- A store with no payloads has those that the quota admits, after they were stored. -/
theorem Unused.putAll (unused : s.Unused) {es : List (Key × Bytes)}
    (once : (es.map (·.1)).Nodup) :
    (s.putAll es).stored.1 = Key.sortNatural (admitted s.maxEntries es) ∧
      ∀ e, e ∈ (s.putAll es).place.entries ↔
        e ∈ s.place.entries ∨ ∃ p ∈ es, p.1 ∈ admitted s.maxEntries es ∧ e = p.1.file p.2 := by
  have once' : ((fitting es).map (·.1)).Nodup := once.sublist (List.filter_sublist.map _)
  have rep := unused.represents.putAll es
  rw [Stock.fillKeeping_empty _ once'] at rep
  refine ⟨?_, fun e => ?_⟩
  · rw [rep.stored, Stock.listed_eq_sortNatural, Stock.ranked_keep, Stock.ranked_fill once',
      admitted]
  · rw [rep.mem_entries]
    refine or_congr_right ⟨?_, ?_⟩
    · rintro ⟨k, b, there, rfl⟩
      obtain ⟨member, first⟩ := (Stock.lookup_keep_fill _ once').mp there
      exact ⟨(k, b), (List.mem_filter.mp member).1, first, rfl⟩
    · rintro ⟨⟨k, b⟩, member, first, rfl⟩
      have fit : (k, b) ∈ fitting es :=
        List.mem_filter.mpr ⟨member, fits_of_mem_admitted first⟩
      exact ⟨k, b, (Stock.lookup_keep_fill _ once').mpr ⟨fit, first⟩, rfl⟩

/-- Of two quotas that are enforced in a row, the larger one makes no difference. -/
theorem Own.enforce_enforce (own : s.Own) (n max : Nat) :
    (∀ e, e ∈ ((s.enforce n).1.enforce max).1.place.entries ↔
      e ∈ (s.enforce (min n max)).1.place.entries) ∧
    ((s.enforce n).1.enforce max).2.2 ++ (s.enforce n).2.2 = (s.enforce (min n max)).2.2 := by
  obtain ⟨m, rep⟩ := own.represents
  have first := rep.enforce n
  have second := first.enforce max
  rw [Stock.keep_keep] at second
  refine ⟨fun e => ?_, ?_⟩
  · rw [second.mem_entries, (rep.enforce (min n max)).mem_entries]
  · rw [first.pruned, rep.pruned, rep.pruned, Stock.ranked_keep, drop_take_append_drop]

/-- What is listed does not depend on the order of the directory. -/
theorem stored_eq_of_perm {es es' : List (String × Node)} (perm : es.Perm es') (max : Nat) :
    (⟨.folder es, max⟩ : Store).stored = (⟨.folder es', max⟩ : Store).stored := by
  simp only [stored, Place.names]
  rw [Key.sortNatural_eq_of_perm ((perm.map _).filterMap _)]

end Store

/-- What a quota leaves does not depend on the order in which things come. The orders of keys are
total, and a key compares equal to itself only. When there are no payloads, and some with distinct
keys are stored in any order, those that the quota admits of them all are there in the end, each as
it was stored; the others are not, and neither are those whose names do not fit. Of two quotas that
are enforced in a row, the larger one makes no difference, neither to the files nor to what was
pruned. What is listed and what is pruned is the same in whatever order the directory has its
entries. -/
theorem quota_in_any_order :
    (Std.TransCmp Key.naturalOrder ∧ Std.LawfulEqCmp Key.naturalOrder ∧
      Std.TransCmp Key.retentionOrder ∧ Std.LawfulEqCmp Key.retentionOrder) ∧
    (∀ (s : Store) (es order : List (Key × Bytes)), s.Unused → (es.map (·.1)).Nodup →
      order.Perm es →
      (s.putAll order).stored.1 = Key.sortNatural (Store.admitted s.maxEntries es) ∧
      ∀ e, e ∈ (s.putAll order).place.entries ↔ e ∈ s.place.entries ∨
        ∃ p ∈ es, p.1 ∈ Store.admitted s.maxEntries es ∧ e = p.1.file p.2) ∧
    (∀ s : Store, s.Own → ∀ n max,
      (∀ e, e ∈ ((s.enforce n).1.enforce max).1.place.entries ↔
        e ∈ (s.enforce (min n max)).1.place.entries) ∧
      ((s.enforce n).1.enforce max).2.2 ++ (s.enforce n).2.2 = (s.enforce (min n max)).2.2) ∧
    (∀ (es es' : List (String × Node)) (limit : Nat), es.Perm es' →
      let s : Store := ⟨.folder es, limit⟩
      let s' : Store := ⟨.folder es', limit⟩
      s.stored = s'.stored ∧ ∀ max, (s.enforce max).2.2 = (s'.enforce max).2.2) := by
  refine ⟨⟨inferInstance, inferInstance, inferInstance, inferInstance⟩, ?_,
    fun s own => own.enforce_enforce, ?_⟩
  · intro s es order unused once perm
    obtain ⟨listed, there⟩ := unused.putAll ((perm.map _).nodup_iff.mpr once)
    rw [Store.admitted_eq_of_perm perm] at listed there
    refine ⟨listed, fun e => (there e).trans (or_congr_right ?_)⟩
    simp only [perm.mem_iff]
  · intro es es' limit perm s s'
    have same : s.stored = s'.stored := Store.stored_eq_of_perm perm limit
    exact ⟨same, fun max => by rw [Store.enforce_pruned, Store.enforce_pruned, same]⟩

/-- Two sessions and a crash, stored with room for two and in the opposite order; and the directory
of all three under two quotas in a row, and the other way round. -/
theorem quota_in_any_order_of_three :
    let old : Key := ⟨10, .session, "a", rfl⟩
    let new : Key := ⟨20, .session, "b", rfl⟩
    let crash : Key := ⟨5, .crash, "c", rfl⟩
    let es : List (Key × Bytes) := [(old, [1]), (new, [2]), (crash, [3])]
    let files := es.map fun e => e.1.file e.2
    let s : Store := ⟨.absent, 2⟩
    let full : Store := ⟨.folder files, 9⟩
    s.Unused ∧ (es.map (·.1)).Nodup ∧ es.reverse.Perm es ∧ full.Own ∧ files.Perm files.reverse ∧
      (s.putAll es).stored.1 = [crash, new] ∧ (s.putAll es.reverse).stored.1 = [crash, new] ∧
      (∀ e, e ∈ (s.putAll es.reverse).place.entries ↔ e = new.file [2] ∨ e = crash.file [3]) ∧
      ((full.enforce 2).1.enforce 1).2.2 ++ (full.enforce 2).2.2 = [new, old] ∧
      ((⟨.folder files.reverse, 9⟩ : Store).enforce 1).2.2 = [new, old] := by
  intro old new crash es files s full
  have unused : s.Unused := ⟨by simp [s], List.nodup_nil, by simp [s, Place.entries]⟩
  have once : (es.map (·.1)).Nodup := by decide +kernel
  have own : full.Own := by
    refine ⟨by simp [full], by decide +kernel, fun e member => ?_⟩
    obtain ⟨p, inside, rfl⟩ := List.mem_map.mp member
    have fit : ∀ p ∈ es, fits p.1.name = true := by decide +kernel
    exact ⟨p.1, p.2, fit p inside, rfl⟩
  have turned : files.Perm files.reverse := (List.reverse_perm _).symm
  have ranked : Key.sortRetention (es.map (·.1)) = [crash, new, old] :=
    (Key.sortRetention_eq_of_perm (by decide)).trans (List.mergeSort_of_pairwise (by decide))
  have first : Store.admitted s.maxEntries es = [crash, new] := by
    have fit : Store.fitting es = es := by decide +kernel
    rw [Store.admitted, fit, ranked]
    rfl
  have listed : Key.sortNatural (Store.admitted s.maxEntries es) = [crash, new] := by
    rw [first]
    exact List.mergeSort_of_pairwise (by decide)
  have pruned : (full.enforce 1).2.2 = [new, old] := by
    have keys : full.keys = es.map (·.1) := by decide +kernel
    rw [Store.enforce_pruned, Key.sortRetention_eq_of_perm full.stored_perm, keys, ranked]
    rfl
  obtain ⟨-, stored, enforced, turnedRound⟩ := quota_in_any_order
  obtain ⟨there, -⟩ := stored s es es unused once (.refl _)
  obtain ⟨back, kept⟩ := stored s es es.reverse unused once (List.reverse_perm _)
  refine ⟨unused, once, List.reverse_perm _, own, turned, there.trans listed, back.trans listed,
    fun e => ?_, (enforced full own 2 1).2.trans pruned, ?_⟩
  · rw [kept, first]
    have apart : old ≠ crash ∧ old ≠ new := by decide
    simp [s, es, Place.entries, apart.1, apart.2]
  · rw [← (turnedRound files files.reverse 9 turned).2 1]
    exact pruned

end Outbox.Storage
