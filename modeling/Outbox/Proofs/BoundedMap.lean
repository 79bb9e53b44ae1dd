import Mathlib.Data.Finmap
import Mathlib.Data.Finset.Sort
import Mathlib.Data.Prod.Lex
import Outbox.Proofs.StoreEntries

/-! # A store is a bounded map

What a store holds is a finite map from keys to payloads. A directory shows such a map by the files
whose names are read as keys, and each operation does to the files what it does to the map: one
entry is set or taken away, and the quota keeps the first keys in the order of keeping. Files of
other origin take no part in it.
-/

namespace Outbox.Storage

/-! ## The orders of keys -/

namespace Key

/-- Where a key stands among others: by importance, then by `time`, then by id. -/
def standing (time : Key → Int) (k : Key) : Nat ×ₗ Int ×ₗ String :=
  toLex (k.kind.rank, toLex (time k, k.id))

theorem standing_le_iff {time : Key → Int} {a b : Key} : standing time a ≤ standing time b ↔
    a.kind.rank < b.kind.rank ∨ (a.kind.rank = b.kind.rank ∧
      (time a < time b ∨ (time a = time b ∧ a.id ≤ b.id))) := by
  simp only [standing, Prod.Lex.toLex_le_toLex]

theorem standing_injective {time : Key → Int}
    (same : ∀ a b : Key, time a = time b → a.timestamp.val = b.timestamp.val) :
    Function.Injective (standing time) := by
  intro a b equal
  obtain ⟨rank, rest⟩ := Prod.mk.inj (toLex_inj.mp equal)
  obtain ⟨times, ids⟩ := Prod.mk.inj (toLex_inj.mp rest)
  exact Key.ext (Ranged.ext (same a b times)) (Kind.rank_inj rank) ids

/-- The order of listing: of one kind the oldest first. -/
abbrev ListedBefore : Key → Key → Prop :=
  Order.Preimage (standing fun k => k.timestamp.val) (· ≤ ·)

/-- The order of keeping: of one kind the newest first. -/
abbrev KeptBefore : Key → Key → Prop :=
  Order.Preimage (standing fun k => -k.timestamp.val) (· ≤ ·)

instance : Std.Antisymm ListedBefore :=
  Order.Preimage.antisymm (standing_injective fun _ _ same => same)

instance : Std.Antisymm KeptBefore :=
  Order.Preimage.antisymm (standing_injective fun _ _ same => Int.neg_inj.mp same)

theorem isLE_naturalOrder {a b : Key} : (naturalOrder a b).isLE = true ↔ ListedBefore a b := by
  simp only [naturalOrder, Order.Preimage, standing_le_iff, Ordering.isLE_then_iff_or,
    isLE_compareText, compare_lt_iff_lt, compare_eq_iff_eq]

theorem outlasts_iff_keptBefore {a b : Key} : a.outlasts b = true ↔ KeptBefore a b := by
  have times : -a.timestamp.val = -b.timestamp.val ↔ b.timestamp.val = a.timestamp.val := by omega
  simp only [outlasts_iff, Order.Preimage, standing_le_iff, Int.neg_lt_neg_iff, times]

theorem sortNatural_sorted (keys : List Key) : (sortNatural keys).Pairwise ListedBefore := by
  have sorted : (sortNatural keys).Pairwise fun a b => (naturalOrder a b).isLE = true := by
    apply List.pairwise_mergeSort
    · intro a b c first second
      simp only [isLE_naturalOrder, Order.Preimage] at *
      exact le_trans first second
    · intro a b
      simp only [Bool.or_eq_true, isLE_naturalOrder]
      exact le_total _ _
  exact sorted.imp isLE_naturalOrder.mp

end Key

/-! ## The map -/

/-- What a store has in stock: the payload of each key. -/
abbrev Stock := Finmap fun _ : Key => Bytes

namespace Stock

variable {m : Stock} {k : Key}

/-- The keys in the order of listing. -/
def listed (m : Stock) : List Key := m.keys.sort Key.ListedBefore

/-- The keys in the order of keeping. -/
def ranked (m : Stock) : List Key := m.keys.sort Key.KeptBefore

def without (m : Stock) (ks : List Key) : Stock := ks.foldl (fun m k => m.erase k) m

/-- The stock with no more than the first `max` keys in the order of keeping. -/
def keep (m : Stock) (max : Nat) : Stock := m.without (m.ranked.drop max)

theorem mem_listed : k ∈ m.listed ↔ k ∈ m := (Finset.mem_sort _).trans Finmap.mem_keys

theorem mem_ranked : k ∈ m.ranked ↔ k ∈ m := (Finset.mem_sort _).trans Finmap.mem_keys

theorem mem_without (ks : List Key) : k ∈ m.without ks ↔ k ∈ m ∧ k ∉ ks := by
  induction ks generalizing m with
  | nil => simp [without]
  | cons l ks ih =>
    change k ∈ without (m.erase l) ks ↔ _
    rw [ih, Finmap.mem_erase, List.mem_cons]
    tauto

theorem mem_keep {max : Nat} : k ∈ m.keep max ↔ k ∈ m.ranked.take max := by
  have once : (m.ranked.take max ++ m.ranked.drop max).Nodup := by
    rw [List.take_append_drop]
    exact Finset.sort_nodup _ _
  rw [keep, mem_without, ← mem_ranked]
  constructor
  · rintro ⟨present, kept⟩
    rw [← List.take_append_drop max m.ranked, List.mem_append] at present
    exact present.resolve_right kept
  · intro kept
    exact ⟨List.mem_of_mem_take kept, List.disjoint_of_nodup_append once kept⟩

/-- No more than `max` keys are kept. -/
theorem length_listed_keep (m : Stock) (max : Nat) : (m.keep max).listed.length ≤ max := by
  have inside : (m.keep max).listed ⊆ m.ranked.take max := by
    intro k member
    exact mem_keep.mp (mem_listed.mp member)
  have once : (m.keep max).listed.Nodup := Finset.sort_nodup _ _
  exact (once.subperm inside).length_le.trans (List.length_take_le _ _)

/-- The keys are listed in order, each of them once. -/
theorem listed_sorted (m : Stock) :
    m.listed.Pairwise fun a b => Key.ListedBefore a b ∧ a ≠ b :=
  List.Pairwise.and (Finset.pairwise_sort _ _) (Finset.sort_nodup _ _)

end Stock

/-- A sorted list of the keys of a set is the only one. -/
theorem sort_eq_of_mem {order : Key → Key → Prop} [DecidableRel order] [IsTrans Key order]
    [Std.Antisymm order] [Std.Total order] {keys : Finset Key} {ks : List Key} (once : ks.Nodup)
    (mem : ∀ k, k ∈ ks ↔ k ∈ keys) (sorted : ks.Pairwise order) : keys.sort order = ks := by
  have same : ks.toFinset = keys := Finset.ext fun k => List.mem_toFinset.trans (mem k)
  rw [← same]
  exact (List.toFinset_sort order once).mpr sorted

/-! ## Calls -/

/-- A call on a store. -/
inductive StoreCall where
  | put (key : Key) (draft : Draft)
  | putBytes (key : Key) (b : Bytes)
  | loadBytes (key : Key)
  | delete (key : Key)
  | enforce (max : Nat)
  | stored
  deriving Repr, DecidableEq

/-- What a call on a store returns. -/
inductive StoreAnswer where
  /-- Of storing: the keys that the quota took. -/
  | put (result : Except StoreError (List Key))
  | payload (result : Except StoreError (Option Bytes))
  | keys (ks : List Key)
  | done
  deriving DecidableEq

/-- The name of the key that a call is about can be one of a file. -/
def StoreCall.fits : StoreCall → Bool
  | put k _ | putBytes k _ | loadBytes k | delete k => Storage.fits k.name
  | enforce _ | stored => true

/-- The state after some calls, and what each of them returned. -/
def runCalls {σ : Type} (perform : σ → StoreCall → σ × StoreAnswer) :
    σ → List StoreCall → σ × List StoreAnswer
  | s, [] => (s, [])
  | s, call :: calls =>
    let (s, answer) := perform s call
    let (s, answers) := runCalls perform s calls
    (s, answer :: answers)

namespace Store

def perform (s : Store) : StoreCall → Store × StoreAnswer
  | .put k draft => ((s.put k draft).1, .put (s.put k draft).2.2)
  | .putBytes k b => ((s.putBytes k b).1, .put (s.putBytes k b).2.2)
  | .loadBytes k => (s, .payload (s.loadBytes k).2)
  | .delete k => ((s.delete k).1, .done)
  | .enforce max => ((s.enforce max).1, .keys (s.enforce max).2.2)
  | .stored => (s, .keys s.stored.1)

end Store

namespace Stock

/-- Sets a payload, and keeps the first `limit` keys. -/
def put (m : Stock) (limit : Nat) (k : Key) : Except StoreError Bytes → Stock × StoreAnswer
  | .ok b =>
    let filled : Stock := m.insert k b
    (filled.keep limit, .put (.ok (filled.ranked.drop limit)))
  | .error e => (m, .put (.error e))

/-- What a call does to the stock of a store with this limit. -/
def perform (limit : Nat) (m : Stock) : StoreCall → Stock × StoreAnswer
  | .put k draft => m.put limit k draft.payload?
  | .putBytes k b => m.put limit k (.ok b)
  | .loadBytes k => (m, .payload (.ok (m.lookup k)))
  | .delete k => (m.erase k, .done)
  | .enforce max => (m.keep max, .keys (m.ranked.drop max))
  | .stored => (m, .keys m.listed)

end Stock

/-! ## Files that show a stock -/

open Place

/-- The name is none of a stored payload: it is read as no key, or it is one of a file that is still
being written. -/
def Foreign (name : String) : Prop :=
  Store.isTemporary name = true ∨ ∀ k, Key.ofName? name ≠ .ok k

theorem Store.keyOf?_eq_none_iff {name : String} : Store.keyOf? name = none ↔ Foreign name := by
  unfold Store.keyOf? Foreign
  cases Store.isTemporary name with
  | true => simp
  | false => cases Key.ofName? name <;> simp

/-- The entries of other origin. -/
def strangers (es : List (String × Node)) : List (String × Node) :=
  es.filter fun e => (Store.keyOf? e.1).isNone

variable {es : List (String × Node)} {m : Stock} {k : Key} {b : Bytes}

theorem strangers_eq_self (foreign : ∀ e ∈ es, Foreign e.1) : strangers es = es := by
  refine List.filter_eq_self.mpr fun e member => ?_
  rw [Store.keyOf?_eq_none_iff.mpr (foreign e member)]
  rfl

theorem strangers_without (es : List (String × Node)) (k : Key) :
    strangers (Place.without es k.name) = strangers es := by
  unfold strangers Place.without
  rw [List.filter_filter]
  refine List.filter_congr fun e _ => ?_
  by_cases same : e.1 = k.name
  · simp [same, Store.keyOf?_name]
  · simp [same]

theorem strangers_withEntry (es : List (String × Node)) (k : Key) (node : Node) :
    strangers (withEntry es k.name node) = strangers es := by
  have added : strangers [(k.name, node)] = [] := by simp [strangers, Store.keyOf?_name]
  have split : strangers (withEntry es k.name node) =
      strangers (Place.without es k.name) ++ strangers [(k.name, node)] := List.filter_append _ _
  rw [split, added, List.append_nil, strangers_without]

/-- The files whose names are read as keys are those of the stock. -/
structure Shows (es : List (String × Node)) (m : Stock) : Prop where
  distinct : (es.map (·.1)).Nodup
  own : ∀ k, entry? es k.name = (m.lookup k).map fun b => .file (.gzip b)
  /-- No file is read as a key that would have another name. -/
  named : ∀ e ∈ es, ∀ k, Store.keyOf? e.1 = some k → e.1 = k.name
  fit : ∀ k ∈ m, fits k.name = true

namespace Shows

theorem empty (distinct : (es.map (·.1)).Nodup) (foreign : ∀ e ∈ es, Foreign e.1) :
    Shows es ∅ where
  distinct := distinct
  own k := by
    rw [Finmap.lookup_empty, Option.map_none, Option.eq_none_iff_forall_ne_some]
    intro node found
    have unread := Store.keyOf?_eq_none_iff.mpr
      (foreign _ ((entry?_eq_some_iff distinct).mp found))
    rw [Store.keyOf?_name] at unread
    cases unread
  named e member k read := by
    rw [Store.keyOf?_eq_none_iff.mpr (foreign e member)] at read
    cases read
  fit k member := absurd member Finmap.notMem_empty

theorem erase (shows_ : Shows es m) (k : Key) : Shows (Place.without es k.name) (m.erase k) where
  distinct := shows_.distinct.sublist (List.filter_sublist.map _)
  own l := by
    by_cases same : l = k
    · rw [same, entry?_without_self, Finmap.lookup_erase, Option.map_none]
    · have differ : l.name ≠ k.name := fun equal => same (Key.name_injective equal)
      rw [entry?_without_of_ne differ, Finmap.lookup_erase_ne same, shows_.own]
  named e member := shows_.named e (List.mem_filter.mp member).1
  fit l member := shows_.fit l (Finmap.mem_erase.mp member).2

theorem insert (shows_ : Shows es m) (fit : fits k.name = true) (b : Bytes) :
    Shows (withEntry es k.name (.file (.gzip b))) (m.insert k b) where
  distinct := withEntry_distinct shows_.distinct _ _
  own l := by
    by_cases same : l = k
    · rw [same, entry?_withEntry_self, Finmap.lookup_insert, Option.map_some]
    · have differ : l.name ≠ k.name := fun equal => same (Key.name_injective equal)
      rw [entry?_withEntry_of_ne differ, Finmap.lookup_insert_of_ne _ same, shows_.own]
  named e member l read := by
    rcases mem_withEntry.mp member with ⟨old, _⟩ | rfl
    · exact shows_.named e old l read
    · rw [Store.keyOf?_name] at read
      rw [Option.some.inj read]
  fit l member := by
    rcases Finmap.mem_insert.mp member with rfl | old
    · exact fit
    · exact shows_.fit l old

/-- The keys that are read from the names are those of the stock. -/
theorem mem_keys (shows_ : Shows es m) : k ∈ es.filterMap (Store.keyOf? ·.1) ↔ k ∈ m := by
  rw [List.mem_filterMap, Finmap.mem_iff]
  constructor
  · rintro ⟨⟨name, node⟩, member, read⟩
    have same : name = k.name := shows_.named _ member k read
    subst same
    have found := (entry?_eq_some_iff shows_.distinct).mpr member
    rw [shows_.own] at found
    obtain ⟨b, there, _⟩ := Option.map_eq_some_iff.mp found
    exact ⟨b, there⟩
  · rintro ⟨b, there⟩
    have found : entry? es k.name = some (.file (.gzip b)) := by rw [shows_.own, there]; rfl
    exact ⟨_, (entry?_eq_some_iff shows_.distinct).mp found, Store.keyOf?_name k⟩

end Shows

/-! ## A store that has a stock -/

/-- The store can be written to and has this limit. Its files are those of the stock and, of other
origin, these. -/
structure Store.Represents (s : Store) (m : Stock) (limit : Nat)
    (others : List (String × Node)) : Prop where
  open_ : s.place ≠ .blocked
  maxEntries : s.maxEntries = limit
  others : strangers s.place.entries = others
  files : Shows s.place.entries m

namespace Store.Represents

variable {s : Store} {limit : Nat} {others : List (String × Node)}

/-- There is room for a file under every key whose name fits. -/
theorem takes (rep : s.Represents m limit others) (fit : fits k.name = true) : s.Takes k where
  fit := fit
  open_ := rep.open_
  free := by
    rw [rep.files.own]
    cases m.lookup k <;> simp

theorem stored (rep : s.Represents m limit others) : s.stored.1 = m.listed := by
  have listing : s.stored.1.Pairwise Key.ListedBefore := by
    obtain ⟨place, max⟩ := s
    cases place with
    | absent | blocked => exact List.Pairwise.nil
    | folder es => exact Key.sortNatural_sorted _
  have once : s.stored.1.Nodup :=
    s.stored_perm.nodup_iff.mpr (keys_nodup rep.files.distinct rep.files.named)
  refine (sort_eq_of_mem once (fun k => ?_) listing).symm
  rw [s.stored_perm.mem_iff, Finmap.mem_keys]
  exact rep.files.mem_keys

theorem ranked (rep : s.Represents m limit others) : Key.sortRetention s.stored.1 = m.ranked := by
  have perm : (Key.sortRetention s.stored.1).Perm m.listed :=
    rep.stored ▸ List.mergeSort_perm _ _
  refine (sort_eq_of_mem (perm.nodup_iff.mpr (Finset.sort_nodup _ _)) (fun k => ?_)
    ((Key.sortRetention_sorted _).imp Key.outlasts_iff_keptBefore.mp)).symm
  rw [perm.mem_iff, Stock.mem_listed, Finmap.mem_keys]

theorem pruned (rep : s.Represents m limit others) (max : Nat) :
    (s.enforce max).2.2 = m.ranked.drop max := by
  rw [enforce_pruned, rep.ranked]

theorem delete (rep : s.Represents m limit others) (fit : fits k.name = true) :
    (s.delete k).1.Represents (m.erase k) limit others := by
  have entries := (rep.takes fit).entries_delete
  refine ⟨delete_open rep.open_ k, (s.maxEntries_delete k).trans rep.maxEntries, ?_, ?_⟩
  · rw [entries, strangers_without, rep.others]
  · rw [entries]
    exact rep.files.erase k

theorem deleteAll (rep : s.Represents m limit others) {ks : List Key}
    (fit : ∀ k ∈ ks, fits k.name = true) :
    (s.deleteAll ks).1.Represents (m.without ks) limit others := by
  induction ks generalizing s m with
  | nil => exact rep
  | cons k ks ih =>
    exact ih (rep.delete (fit k (by simp))) fun l member => fit l (List.mem_cons_of_mem _ member)

theorem enforce (rep : s.Represents m limit others) (max : Nat) :
    (s.enforce max).1.Represents (m.keep max) limit others := by
  rw [enforce_place, rep.pruned]
  refine rep.deleteAll fun k member => ?_
  exact rep.files.fit k (Stock.mem_ranked.mp (List.mem_of_mem_drop member))

theorem written (rep : s.Represents m limit others) (fit : fits k.name = true) (b : Bytes) :
    (s.written k b).Represents (m.insert k b) limit others where
  open_ := by simp [Store.written]
  maxEntries := rep.maxEntries
  others := (strangers_withEntry _ k _).trans rep.others
  files := rep.files.insert fit b

theorem putBytes (rep : s.Represents m limit others) (fit : fits k.name = true) (b : Bytes) :
    StoreAnswer.put (s.putBytes k b).2.2 = (m.put limit k (.ok b)).2 ∧
      (s.putBytes k b).1.Represents (m.put limit k (.ok b)).1 limit others := by
  obtain ⟨reports, result⟩ := (rep.takes fit).putBytes_eq b
  have filled := rep.written fit b
  rw [result, rep.maxEntries]
  exact ⟨by rw [filled.pruned]; rfl, filled.enforce limit⟩

theorem put (rep : s.Represents m limit others) (fit : fits k.name = true) (draft : Draft) :
    StoreAnswer.put (s.put k draft).2.2 = (m.put limit k draft.payload?).2 ∧
      (s.put k draft).1.Represents (m.put limit k draft.payload?).1 limit others := by
  cases result : draft.payload? with
  | ok b =>
    rw [put_eq_putBytes result]
    exact rep.putBytes fit b
  | error e =>
    obtain ⟨_, same, entries⟩ := put_of_error result s k
    obtain ⟨answer, open_⟩ := put_of_error_of_open (k := k) result rep.open_
    refine ⟨by rw [answer]; rfl, open_, same.trans rep.maxEntries, ?_, ?_⟩
    · rw [entries, rep.others]
    · rw [entries]
      exact rep.files

theorem loadBytes (rep : s.Represents m limit others) (fit : fits k.name = true) :
    (s.loadBytes k).2 = .ok (m.lookup k) := by
  cases held : m.lookup k with
  | none =>
    have lacks : s.Lacks k := by
      intro node found
      have there := (openFile_eq_ok_iff.mp found).2
      rw [rep.files.own, held] at there
      cases there
    rw [(rep.takes fit).loadBytes lacks]
  | some b =>
    have found : s.place.openFile k.name = .ok (.file (.gzip b)) := by
      rw [openFile_eq_ok_iff, rep.files.own, held]
      exact ⟨fit, rfl⟩
    simp [Store.loadBytes, load, found, Node.payload?, Content.payload?]

/-- A call returns what the map returns, and does to the files what it does to the map. -/
theorem perform (rep : s.Represents m limit others) {call : StoreCall} (fit : call.fits = true) :
    (s.perform call).2 = (m.perform limit call).2 ∧
      (s.perform call).1.Represents (m.perform limit call).1 limit others := by
  cases call with
  | put k draft => exact rep.put fit draft
  | putBytes k b => exact rep.putBytes fit b
  | loadBytes k => exact ⟨congrArg StoreAnswer.payload (rep.loadBytes fit), rep⟩
  | delete k => exact ⟨rfl, rep.delete fit⟩
  | enforce max => exact ⟨congrArg StoreAnswer.keys (rep.pruned max), rep.enforce max⟩
  | stored => exact ⟨congrArg StoreAnswer.keys rep.stored, rep⟩

theorem runCalls (rep : s.Represents m limit others) {calls : List StoreCall}
    (fit : ∀ call ∈ calls, call.fits = true) :
    (runCalls Store.perform s calls).2 = (runCalls (Stock.perform limit) m calls).2 ∧
      (runCalls Store.perform s calls).1.Represents (runCalls (Stock.perform limit) m calls).1
        limit others := by
  induction calls generalizing s m with
  | nil => exact ⟨rfl, rep⟩
  | cons call calls ih =>
    obtain ⟨answer, rep⟩ := rep.perform (fit call (by simp))
    obtain ⟨answers, rep⟩ := ih rep fun c member => fit c (List.mem_cons_of_mem _ member)
    exact ⟨List.cons_eq_cons.mpr ⟨answer, answers⟩, rep⟩

end Store.Represents

/-- The last answer is the one that led to the state. -/
theorem runCalls_last {σ : Type} {perform : σ → StoreCall → σ × StoreAnswer} {s : σ}
    {calls : List StoreCall} {answer : StoreAnswer}
    (last : (runCalls perform s calls).2.getLast? = some answer) :
    ∃ before call, perform before call = ((runCalls perform s calls).1, answer) := by
  induction calls generalizing s with
  | nil => cases last
  | cons call calls ih =>
    cases calls with
    | nil => exact ⟨s, call, Prod.ext rfl (Option.some.inj last)⟩
    | cons next calls => exact ih last

/-- Storing a payload leaves no more keys than the limit. -/
theorem Stock.length_listed_put {limit : Nat} {m m' : Stock} {call : StoreCall} {ks : List Key}
    (stored : m.perform limit call = (m', .put (.ok ks))) : m'.listed.length ≤ limit := by
  have put (k : Key) (result : Except StoreError Bytes)
      (stored : m.put limit k result = (m', .put (.ok ks))) : m'.listed.length ≤ limit := by
    cases result with
    | ok b => exact (Prod.mk.inj stored).1 ▸ length_listed_keep _ limit
    | error e => cases (Prod.mk.inj stored).2
  cases call with
  | put k draft => exact put k draft.payload? stored
  | putBytes k b => exact put k (.ok b) stored
  | loadBytes | delete | enforce | stored => cases (Prod.mk.inj stored).2

/-- The path is not blocked, each name is there once, and no file is one of a stored payload. -/
structure Store.Unused (s : Store) : Prop where
  open_ : s.place ≠ .blocked
  distinct : (s.place.entries.map (·.1)).Nodup
  foreign : ∀ e ∈ s.place.entries, Foreign e.1

theorem Store.Unused.represents {s : Store} (unused : s.Unused) :
    s.Represents ∅ s.maxEntries s.place.entries where
  open_ := unused.open_
  maxEntries := rfl
  others := strangers_eq_self unused.foreign
  files := .empty unused.distinct unused.foreign

/-- Whatever is called on a store, it answers as a bounded map does and has the files of that map.
It lists the keys in order, each once, and after storing no more than the limit. Files of other
origin stay as they are. -/
theorem bounded_map {s : Store} (unused : s.Unused) {calls : List StoreCall}
    (fit : ∀ call ∈ calls, call.fits = true) :
    let store := runCalls Store.perform s calls
    let stock := runCalls (Stock.perform s.maxEntries) ∅ calls
    store.2 = stock.2 ∧ Shows store.1.place.entries stock.1 ∧
      (store.1.stored.1.Pairwise fun a b => Key.ListedBefore a b ∧ a ≠ b) ∧
      (∀ pruned, store.2.getLast? = some (.put (.ok pruned)) →
        store.1.stored.1.length ≤ s.maxEntries) ∧
      strangers store.1.place.entries = s.place.entries := by
  intro store stock
  obtain ⟨answers, rep⟩ := unused.represents.runCalls fit
  refine ⟨answers, rep.files, ?_, fun pruned last => ?_, rep.others⟩
  · rw [rep.stored]
    exact stock.1.listed_sorted
  · rw [rep.stored]
    rw [answers] at last
    obtain ⟨before, call, stored⟩ := runCalls_last last
    exact Stock.length_listed_put stored

/-- A store with room for one payload, next to files of other origin: the second writer of a log
fails, and the crash that comes last leaves room for nothing else. -/
theorem bounded_map_of_crowded :
    let log : Key := ⟨5, .log, "a", rfl⟩
    let crash : Key := ⟨.clamp (-3), .crash, "a_v1.gz", rfl⟩
    let s : Store := ⟨.folder [("README.txt", .file (.raw [7])),
      (".tmp-1_log_a_v1.gz", .file (.raw []))], 1⟩
    let calls : List StoreCall := [.putBytes log [9], .put log ⟨[[1]], .failed "full"⟩,
      .loadBytes log, .stored, .put crash ⟨[[1], [2]], .finished⟩]
    let store := runCalls Store.perform s calls
    let stock := runCalls (Stock.perform 1) ∅ calls
    s.Unused ∧ (∀ call ∈ calls, call.fits = true) ∧ store.2 = stock.2 ∧
      Shows store.1.place.entries stock.1 ∧ store.1.stored.1.length ≤ 1 ∧
      strangers store.1.place.entries = s.place.entries := by
  intro log crash s calls store stock
  have unused : s.Unused := by
    refine ⟨by simp [s], by simp [s, Place.entries], fun e member => ?_⟩
    simp only [s, Place.entries, List.mem_cons, List.not_mem_nil, or_false] at member
    rcases member with rfl | rfl
    · exact Store.keyOf?_eq_none_iff.mp (by decide +kernel)
    · exact .inl (by decide +kernel)
  have fit : ∀ call ∈ calls, call.fits = true := by decide +kernel
  obtain ⟨answers, files, -, room, others⟩ := bounded_map unused fit
  have last : ∃ pruned, stock.2.getLast? = some (.put (.ok pruned)) := ⟨_, rfl⟩
  obtain ⟨pruned, last⟩ := last
  exact ⟨unused, fit, answers, files, room pruned (by rw [answers]; exact last), others⟩

end Outbox.Storage
