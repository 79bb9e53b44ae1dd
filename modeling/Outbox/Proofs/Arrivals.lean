import Outbox.Proofs.Durability

/-! # What goes into the queue

Each move puts a number of deliveries into the queue, one after the other: new ones, or one again
whose attempt failed. Every time the store may take others, and reports that it did. Nothing else
puts a delivery into the queue, and only a task that has one in hand takes one out.
-/

namespace Outbox

open Storage (Key Store)

namespace Storage.Store

variable {s : Store} {k l : Key} {b : Bytes}

/-- The report about deleted payloads. -/
def pruneReport : Report := ⟨.payloadPruned, pruneMessage, none⟩

/-- The keys that storing a payload deletes. -/
def pruned (s : Store) (k : Key) (b : Bytes) : List Key :=
  match (s.putBytes k b).2.2 with
  | .ok keys => keys
  | .error _ => []

theorem delete_entries (s : Store) (k : Key) :
    (s.delete k).1.place.entries ⊆ s.place.entries := by
  obtain ⟨place, max⟩ := s
  cases place with
  | absent | blocked => exact fun _ member => member
  | folder es =>
    simp only [delete, Place.removeFile]
    split
    case h_1 place removed =>
      split at removed
      · cases removed
      · split at removed <;> cases removed
        exact List.filter_sublist.subset
    case h_2 | h_3 => exact fun _ member => member

theorem mem_keys_of_delete (found : l ∈ (s.delete k).1.keys) : l ∈ s.keys := by
  obtain ⟨e, member, read⟩ := List.mem_filterMap.mp found
  exact List.mem_filterMap.mpr ⟨e, delete_entries s k member, read⟩

theorem mem_keys_of_deleteAll {ks : List Key} (found : l ∈ (s.deleteAll ks).1.keys) :
    l ∈ s.keys := by
  induction ks generalizing s with
  | nil => exact found
  | cons k ks ih => exact mem_keys_of_delete (ih found)

theorem mem_keys_of_written (found : l ∈ (s.written k b).keys) : l = k ∨ l ∈ s.keys := by
  rw [keys_written, List.mem_append, List.mem_singleton] at found
  rcases found with old | rfl
  · obtain ⟨e, member, read⟩ := List.mem_filterMap.mp old
    exact .inr (List.mem_filterMap.mpr ⟨e, (List.mem_filter.mp member).1, read⟩)
  · exact .inl rfl

/-- What a store deletes when it stores a payload, and what it has then, is that payload or was
there before. -/
theorem mem_keys_of_putBytes :
    (l ∈ s.pruned k b → l = k ∨ l ∈ s.keys) ∧
      (l ∈ (s.putBytes k b).1.keys → l = k ∨ l ∈ s.keys) := by
  rcases s.putBytes_eq k b with ⟨_, reports, result⟩ | ⟨⟨e, failed⟩, same, _⟩
  · rw [pruned, result]
    refine ⟨fun gone => mem_keys_of_written (mem_keys_of_mem_enforce gone), fun found => ?_⟩
    rw [enforce_place] at found
    exact mem_keys_of_written (mem_keys_of_deleteAll found)
  · rw [pruned, failed]
    refine ⟨fun gone => absurd gone List.not_mem_nil, fun found => .inr ?_⟩
    rw [keys, same] at found
    exact found

theorem enforce_tells {max : Nat} (some_ : (s.enforce max).2.2 ≠ []) :
    pruneReport ∈ (s.enforce max).2.1 := by
  simp only [enforce] at some_ ⊢
  split
  case isTrue few => simp [few] at some_
  case isFalse => simp [pruneReport]

/-- Whoever deletes payloads reports it. -/
theorem pruned_told (some_ : s.pruned k b ≠ []) : pruneReport ∈ (s.putBytes k b).2.1 := by
  unfold pruned at some_
  simp only [putBytes, put] at some_ ⊢
  split
  case h_1 found =>
    rw [found] at some_
    exact absurd rfl some_
  case h_2 place found =>
    rw [found] at some_
    exact enforce_tells some_

end Storage.Store

namespace Queue

variable {q : Queue} {p x : Pending} {ps qs : List Pending} {e : Endpoint} {id : String}

/-- The queue has a delivery to this endpoint with this id. -/
def Has (q : Queue) (e : Endpoint) (id : String) : Prop :=
  ∃ x, q.Holds x ∧ x.endpoint = e ∧ x.id = id

theorem contains_of_missing (missing : q.get? e id = none) : q.contains e id = false := by
  rw [contains, missing]
  rfl

theorem Tidy.contains_iff (tidy : q.Tidy) : q.contains e id = true ↔ q.Has e id := by
  rw [contains, Option.isSome_iff_exists]
  constructor
  · rintro ⟨x, found⟩
    obtain ⟨home, name, held⟩ := tidy.get?_eq_some_iff.mp found
    exact ⟨x, held, home, name⟩
  · rintro ⟨x, held, home, name⟩
    exact ⟨x, tidy.get?_eq_some_iff.mpr ⟨home, name, held⟩⟩

/-- The keys that the store deletes when a delivery is saved. -/
def pruned (q : Queue) (p : Pending) : List Key :=
  match p.key? with
  | none => []
  | some k => q.store.pruned k p.encode

theorem save_of_key {k : Key} (keyed : p.key? = some k) :
    (q.save p).1 = (({ q with store := (q.store.putBytes k p.encode).1 } : Queue).remember
        p).forgetAll (q.store.pruned k p.encode) ∧
      (q.save p).2.1 = (q.store.putBytes k p.encode).2.1 := by
  simp only [save, keyed, Store.pruned]
  generalize (q.store.putBytes k p.encode).2.2 = result
  cases result <;> exact ⟨rfl, rfl⟩

/-- A saved delivery takes the place of the one with its id, and what the store deletes leaves the
queue. -/
theorem holds_save_iff : (q.save p).1.Holds x ↔
    (x = p ∨ (q.Holds x ∧ ¬(x.endpoint = p.endpoint ∧ x.id = p.id))) ∧
      ∀ k ∈ q.pruned p, ¬(x.endpoint = k.kind.endpoint ∧ x.id = k.id) := by
  cases keyed : p.key? with
  | none => simp [save, pruned, keyed, holds_remember]
  | some k =>
    rw [(save_of_key keyed).1, holds_forgetAll, holds_remember, pruned, keyed]
    rfl

/-- A delivery that the quota has no room for is gone as soon as it was saved. -/
theorem not_has_save {k : Key} (keyed : p.key? = some k) (done : (q.save p).2.2.isOk = true)
    (full : ¬q.HasRoom p) : ¬(q.save p).1.Has p.endpoint p.id := by
  have stored : (q.store.putBytes k p.encode).2.2.isOk = true := (save_file keyed).2 ▸ done
  have behind : q.store.maxEntries ≤ q.store.ahead k :=
    Nat.le_of_not_lt fun room => full ⟨k, keyed, room⟩
  have gone : k ∈ q.pruned p := by
    rcases q.store.putBytes_eq k p.encode with ⟨_, reports, result⟩ | ⟨⟨e, failed⟩, _⟩
    · simp only [pruned, keyed, Store.pruned, result]
      exact (q.store.mem_enforce_written k p.encode).mpr behind
    · rw [failed] at stored
      cases stored
  obtain ⟨_, home, name⟩ := Pending.key?_eq_some keyed
  rintro ⟨x, held, home', name'⟩
  exact (holds_save_iff.mp held).2 k gone ⟨home'.trans home.symm, name'.trans name.symm⟩

theorem save_store (q : Queue) (p : Pending) : (q.save p).1.store =
    match p.key? with
    | none => q.store
    | some k => (q.store.putBytes k p.encode).1 := by
  cases keyed : p.key? with
  | none =>
    simp only [save, keyed]
    rfl
  | some k => exact (save_file keyed).1

/-- Whoever deletes deliveries from the store reports it. -/
theorem pruned_told (some_ : q.pruned p ≠ []) : Store.pruneReport ∈ (q.save p).2.1 := by
  cases keyed : p.key? with
  | none => simp [pruned, keyed] at some_
  | some k =>
    simp only [pruned, keyed] at some_
    rw [(save_of_key keyed).2]
    exact Store.pruned_told some_

/-- The queue with some deliveries saved, one after the other. -/
def saveAll (q : Queue) (ps : List Pending) : Queue := ps.foldl (fun q p => (q.save p).1) q

/-- The keys that the store deletes meanwhile. -/
def evicted (q : Queue) : List Pending → List Key
  | [] => []
  | p :: ps => q.pruned p ++ (q.save p).1.evicted ps

theorem saveAll_append (q : Queue) (ps qs : List Pending) :
    q.saveAll (ps ++ qs) = (q.saveAll ps).saveAll qs := List.foldl_append

theorem evicted_append (q : Queue) (ps qs : List Pending) :
    q.evicted (ps ++ qs) = q.evicted ps ++ (q.saveAll ps).evicted qs := by
  induction ps generalizing q with
  | nil => rfl
  | cons p ps ih =>
    rw [List.cons_append, evicted, ih, evicted, List.append_assoc]
    rfl

theorem holds_saveAll (held : (q.saveAll ps).Holds x) : x ∈ ps ∨ q.Holds x := by
  induction ps generalizing q with
  | nil => exact .inr held
  | cons p ps ih =>
    rcases ih held with later | before
    · exact .inl (List.mem_cons_of_mem _ later)
    · rcases (holds_save_iff.mp before).1 with rfl | ⟨old, _⟩
      · exact .inl List.mem_cons_self
      · exact .inr old

theorem mem_keys_of_remove {k : Key} (found : k ∈ (q.remove p).1.store.keys) :
    k ∈ q.store.keys := by
  rw [remove, forget_store] at found
  cases keyed : p.key? with
  | none => simpa only [keyed] using found
  | some l =>
    simp only [keyed] at found
    exact Store.mem_keys_of_delete found

/-- What was there, or was saved, is there afterwards or was deleted by the store. -/
theorem Has.saveAll (there : q.Has e id ∨ ∃ p ∈ ps, p.endpoint = e ∧ p.id = id) :
    (q.saveAll ps).Has e id ∨ ∃ k ∈ q.evicted ps, k.kind.endpoint = e ∧ k.id = id := by
  induction ps generalizing q with
  | nil => exact .inl (there.resolve_right (by simp))
  | cons p ps ih =>
    have next : (∃ k ∈ q.pruned p, k.kind.endpoint = e ∧ k.id = id) ∨
        ((q.save p).1.Has e id ∨ ∃ p ∈ ps, p.endpoint = e ∧ p.id = id) := by
      by_cases gone : ∃ k ∈ q.pruned p, k.kind.endpoint = e ∧ k.id = id
      · exact .inl gone
      · refine .inr ?_
        have kept {y : Pending} (home : y.endpoint = e) (name : y.id = id) :
            ∀ k ∈ q.pruned p, ¬(y.endpoint = k.kind.endpoint ∧ y.id = k.id) := by
          rintro k member ⟨home', name'⟩
          exact gone ⟨k, member, home'.symm.trans home, name'.symm.trans name⟩
        by_cases self : p.endpoint = e ∧ p.id = id
        · exact .inl ⟨p, holds_save_iff.mpr ⟨.inl rfl, kept self.1 self.2⟩, self⟩
        · rcases there with ⟨x, held, home, name⟩ | ⟨y, member, at_⟩
          · refine .inl ⟨x, holds_save_iff.mpr ⟨.inr ⟨held, ?_⟩, kept home name⟩, home, name⟩
            exact fun same => self ⟨same.1.symm.trans home, same.2.symm.trans name⟩
          · rcases List.mem_cons.mp member with rfl | later
            · exact absurd at_ self
            · exact .inr ⟨y, later, at_⟩
    rcases next with ⟨k, member, at_⟩ | next
    · exact .inr ⟨k, List.mem_append_left _ member, at_⟩
    · rcases ih next with kept | ⟨k, member, at_⟩
      · exact .inl kept
      · exact .inr ⟨k, List.mem_append_right _ member, at_⟩

/-- What the store deletes, and what it has in the end, was saved or was there before. -/
theorem mem_keys_of_saveAll {k : Key} :
    (k ∈ q.evicted ps → k ∈ q.store.keys ∨ ∃ p ∈ ps, p.key? = some k) ∧
      (k ∈ (q.saveAll ps).store.keys → k ∈ q.store.keys ∨ ∃ p ∈ ps, p.key? = some k) := by
  induction ps generalizing q with
  | nil => exact ⟨fun gone => absurd gone List.not_mem_nil, .inl⟩
  | cons p ps ih =>
    have one : (k ∈ q.pruned p ∨ k ∈ (q.save p).1.store.keys) →
        k ∈ q.store.keys ∨ ∃ p' ∈ p :: ps, p'.key? = some k := by
      rw [save_store, pruned]
      cases keyed : p.key? with
      | none => exact fun h => .inl (h.resolve_left List.not_mem_nil)
      | some l =>
        have stored := Store.mem_keys_of_putBytes (s := q.store) (k := l) (l := k) (b := p.encode)
        rintro (gone | found)
        · rcases stored.1 gone with rfl | old
          · exact .inr ⟨p, List.mem_cons_self, keyed⟩
          · exact .inl old
        · rcases stored.2 found with rfl | old
          · exact .inr ⟨p, List.mem_cons_self, keyed⟩
          · exact .inl old
    have onward (next : k ∈ (q.save p).1.store.keys ∨ ∃ p ∈ ps, p.key? = some k) :
        k ∈ q.store.keys ∨ ∃ p' ∈ p :: ps, p'.key? = some k := by
      rcases next with old | ⟨y, member, keyed⟩
      · exact one (.inr old)
      · exact .inr ⟨y, List.mem_cons_of_mem _ member, keyed⟩
    refine ⟨fun gone => ?_, fun found => onward (ih.2 found)⟩
    rcases List.mem_append.mp gone with first | later
    · exact one (.inl first)
    · exact onward (ih.1 later)

end Queue

namespace Service

variable {s t u : Service} {ps qs : List Pending} {id : Nat} {m : Move}

/-- From `s` to `t` these new deliveries were put in the queue, each with the next id, and it was
reported if the store deleted others. -/
structure Files (s t : Service) (ps : List Pending) : Prop where
  idOf : t.idOf = s.idOf
  made : t.made = s.made + ps.length
  ids : ps.map (·.id) = (List.range' s.made ps.length).map s.idOf
  origin : ∀ p ∈ ps, p.origin = p
  queue : t.queue = s.queue.saveAll ps
  journal : ∃ hs, t.journal = hs ++ s.journal ∧
    (s.queue.evicted ps ≠ [] → .report Store.pruneReport ∈ hs)

theorem Files.trans (first : Files s t ps) (second : Files t u qs) : Files s u (ps ++ qs) where
  idOf := second.idOf.trans first.idOf
  made := by rw [second.made, first.made, List.length_append, Nat.add_assoc]
  ids := by
    rw [List.map_append, first.ids, second.ids, first.made, first.idOf, ← List.map_append,
      List.length_append, ← List.range'_append_1]
  origin p member := (List.mem_append.mp member).elim (first.origin p) (second.origin p)
  queue := by rw [second.queue, first.queue, Queue.saveAll_append]
  journal := by
    obtain ⟨hs, shape, told⟩ := first.journal
    obtain ⟨gs, shape', told'⟩ := second.journal
    refine ⟨gs ++ hs, by rw [shape', shape, List.append_assoc], ?_⟩
    intro gone
    rw [Queue.evicted_append, ← first.queue] at gone
    by_cases early : s.queue.evicted ps = []
    · rw [early, List.nil_append] at gone
      exact List.mem_append_left _ (told' gone)
    · exact List.mem_append_right _ (told early)

theorem Quiet.files (quiet : Quiet s t) : Files s t [] where
  idOf := Becomes.idOf quiet
  made := congrArg Outline.made quiet.outline
  ids := rfl
  origin := by simp
  queue := congrArg Outline.queue quiet.outline
  journal := by
    obtain ⟨hs, shape, _⟩ := Becomes.journal quiet
    exact ⟨hs, shape, fun gone => absurd rfl gone⟩

theorem Files.quiet (files : Files s t ps) (quiet : Quiet t u) : Files s u ps := by
  have both := files.trans quiet.files
  rwa [List.append_nil] at both

theorem Quiet.file (quiet : Quiet s t) (files : Files t u ps) : Files s u ps :=
  quiet.files.trans files

theorem enqueue_files (s : Service) (e : Endpoint) (payload : Bytes) :
    Files s (s.enqueue e payload).1 [(s.enqueue e payload).2.1] where
  idOf := rfl
  made := rfl
  ids := rfl
  origin p member := by
    rw [List.mem_singleton.mp member]
    rfl
  queue := rfl
  journal := by
    refine ⟨_, rfl, fun gone => ?_⟩
    rw [Queue.evicted, Queue.evicted, List.append_nil] at gone
    exact List.mem_reverse.mpr (List.mem_map_of_mem (Queue.pruned_told gone))

theorem persistFinal_files (s : Service) (e : Envelope) :
    Files s (s.persistFinal e).1 [(s.persistFinal e).2.1] := by
  have enqueued := enqueue_files s e.endpoint e.body
  unfold persistFinal
  dsimp only
  split
  · exact enqueued.quiet (deleteSnapshot_quiet _ e)
  · exact enqueued.quiet (storeSnapshot_quiet _ e)

/-- The envelope of a snapshot that is put in the queue. -/
def snapshot? (s : Service) (key : Key) : Option Envelope :=
  if s.isFinalized key.id then none
  else
    match (s.snapshots.loadBytes key).2 with
    | .ok (some b) => Envelope.decode? b
    | _ => none

/-- The deliveries that are made of the snapshots with these keys. -/
def requeued (s : Service) : List Key → List Pending
  | [] => []
  | key :: keys =>
    ((s.snapshot? key).map fun e => (s.enqueue e.endpoint e.body).2.1).toList ++
      (s.requeue [key]).1.requeued keys

theorem requeue_singleton_files (s : Service) (key : Key) : Files s (s.requeue [key]).1
    ((s.snapshot? key).map fun e => (s.enqueue e.endpoint e.body).2.1).toList := by
  have loaded := report_quiet (s := s) (s.snapshots.loadBytes_plain key)
  simp only [requeue, snapshot?]
  split
  case isTrue => exact (Quiet.refl s).files
  case isFalse =>
    split
    case h_1 found =>
      simp only [found]
      exact loaded.files
    case h_2 e found =>
      simp only [found]
      exact ((loaded.trans (resurrectionFail_quiet _ key (c := 'U') (by decide) (by decide))).trans
        (dropSnapshot_quiet _ key)).files
    case h_3 b found =>
      simp only [found]
      cases decoded : Envelope.decode? b with
      | none =>
        exact ((loaded.trans (resurrectionFail_quiet _ key (c := 'U') (by decide)
          (by decide))).trans (dropSnapshot_quiet _ key)).files
      | some e =>
        have enqueued := loaded.file (enqueue_files _ e.endpoint e.body)
        dsimp only
        split
        · exact enqueued.quiet (dropSnapshot_quiet _ key)
        · exact enqueued

theorem requeue_files (s : Service) (keys : List Key) :
    Files s (s.requeue keys).1 (s.requeued keys) := by
  induction keys generalizing s with
  | nil => exact (Quiet.refl s).files
  | cons key keys ih =>
    rw [← List.singleton_append, requeue_append]
    exact (requeue_singleton_files s key).trans (ih _)

theorem resurrect_files (s : Service) : Files s s.resurrect.1
    ((s.report s.snapshots.stored.2).requeued s.snapshots.stored.1) :=
  (report_quiet s.snapshots.stored_plain).file (requeue_files _ _)

/-- The new deliveries that dealing with files puts in the queue. -/
def filed (s : Service) : Work → List Pending
  | .enqueue e payload => [(s.enqueue e payload).2.1]
  | .persist e => [(s.persistFinal e).2.1]
  | .resurrect => (s.report s.snapshots.stored.2).requeued s.snapshots.stored.1
  | .cache _ | .remove _ _ _ | .record _ _ _ | .discard _ _ => []

/-- The new deliveries that a move puts in the queue. -/
def arrivals (s : Service) : Move → List Pending
  | .work id =>
    match s.stage? id with
    | some (.working w) => s.filed w
    | _ => []
  | .envelope e .crash => [((s.markFinalized e).persistFinal e).2.1]
  | _ => []

/-- The delivery that a move saves again because its attempt failed. -/
def recounts (s : Service) : Move → Option Pending
  | .work id =>
    match s.stage? id with
    | some (.working (.record p time _)) => some (p.failed time)
    | _ => none
  | _ => none

/-- The keys that the store of the queue deletes in a move. -/
def evicted (s : Service) (m : Move) : List Key :=
  s.queue.evicted (s.arrivals m ++ (s.recounts m).toList)

/-- The delivery that a move takes out of the queue. -/
def removal? (s : Service) : Move → Option Pending
  | .work id =>
    match s.stage? id with
    | some (.working (.remove p _ _)) => some p
    | _ => none
  | _ => none

/-- The new deliveries of a run. -/
def accepted (s : Service) : List Move → List Pending
  | [] => []
  | m :: ms => s.arrivals m ++ (s.step m).accepted ms

theorem Becomes.files {added : List Happening} {o : Outline} (became : Becomes added o s t)
    (made : o.made = s.made) (queue : o.queue = s.queue) : Files s t [] where
  idOf := became.idOf
  made := (congrArg Outline.made became.outline).trans made
  ids := rfl
  origin := by simp
  queue := (congrArg Outline.queue became.outline).trans queue
  journal := by
    obtain ⟨hs, shape, _⟩ := became.journal
    exact ⟨hs, shape, fun gone => absurd rfl gone⟩

theorem Files.setStage (files : Files s t ps) (stage : Stage) : Files s (t.setStage id stage) ps :=
  ⟨files.idOf, files.made, files.ids, files.origin, files.queue, files.journal⟩

/-- What a move does to the queue: it puts new deliveries in, takes one out or saves one again. -/
inductive Stores (s : Service) (m : Move) : Prop where
  | files (files : Files s (s.step m) (s.arrivals m)) (fresh : s.recounts m = none)
      (stays : s.removal? m = none)
  | removes {id : Nat} {p : Pending} {ending : Ending} {purpose : Purpose} (work : m = .work id)
      (at_ : s.stage? id = some (.working (.remove p ending purpose)))
      (queue : (s.step m).queue = (s.queue.remove p).1)
  | records {id : Nat} {p : Pending} {time : Millis} {purpose : Purpose} (work : m = .work id)
      (at_ : s.stage? id = some (.working (.record p time purpose)))
      (queue : (s.step m).queue = (s.queue.save (p.failed time)).1)
      (told : s.queue.pruned (p.failed time) ≠ [] → .report Store.pruneReport ∈ s.news m)

theorem mem_news {hs : List Happening} (shape : (s.step m).journal = hs ++ s.journal)
    {h : Happening} : h ∈ s.news m ↔ h ∈ hs := by
  rw [news, shape, List.length_append, Nat.add_sub_cancel, List.take_left]

/-- Dealing with files stores what belongs to the stage of the task. -/
theorem work_stores {w : Work} (at_ : s.stage? id = some (.working w)) :
    s.Stores (.work id) := by
  have filed (files : Files s (s.perform w).1 (s.filed w)) (fresh : s.recounts (.work id) = none)
      (stays : s.removal? (.work id) = none) : s.Stores (.work id) := by
    refine .files ?_ fresh stays
    simp only [step, work, arrivals, at_]
    exact files.setStage _
  cases w with
  | remove p ending purpose =>
    refine .removes rfl at_ ?_
    simp only [step, work, at_]
    rfl
  | record p time purpose =>
    refine .records rfl at_ ?_ fun gone => ?_
    · simp only [step, work, at_]
      rfl
    · have shape : (s.step (.work id)).journal =
          ((s.queue.recordFailure p time).2.1.map Happening.report).reverse ++ s.journal := by
        simp only [step, work, at_]
        rfl
      exact (mem_news shape).mpr
        (List.mem_reverse.mpr (List.mem_map_of_mem (Queue.pruned_told gone)))
  | enqueue e payload =>
    exact filed (enqueue_files s e payload) (by simp [recounts, at_]) (by simp [removal?, at_])
  | persist e =>
    exact filed (persistFinal_files s e) (by simp [recounts, at_]) (by simp [removal?, at_])
  | cache e =>
    exact filed (writeSnapshot_quiet s e).files (by simp [recounts, at_]) (by simp [removal?, at_])
  | discard e outcome =>
    exact filed (deleteSnapshot_quiet s e).files (by simp [recounts, at_]) (by simp [removal?, at_])
  | resurrect =>
    exact filed (resurrect_files s) (by simp [recounts, at_]) (by simp [removal?, at_])

theorem step_work_of_idle (other : ∀ w, s.stage? id ≠ some (.working w)) :
    s.step (.work id) = s := by
  simp only [step, work]

theorem work_idle (other : ∀ w, s.stage? id ≠ some (.working w)) :
    s.Stores (.work id) := by
  have idle : s.arrivals (.work id) = [] ∧ s.recounts (.work id) = none ∧
      s.removal? (.work id) = none := by
    simp only [arrivals, recounts, removal?]
    split <;> simp_all
  obtain ⟨none_, fresh, stays⟩ := idle
  refine .files ?_ fresh stays
  rw [step_work_of_idle other, none_]
  exact (Quiet.refl s).files

theorem sendEnvelope_files (s : Service) (e : Envelope) (type : SnapshotType) :
    Files s (s.sendEnvelope e type) (s.arrivals (.envelope e type)) := by
  cases type with
  | normalEnd | periodic => exact Quiet.files (spawn_quiet s rfl)
  | crash =>
    have marked : Quiet s (s.markFinalized e) := .aside rfl rfl rfl rfl rfl rfl rfl
    have filed := marked.file (persistFinal_files (s.markFinalized e) e)
    exact ⟨filed.idOf, filed.made, filed.ids, filed.origin, filed.queue, filed.journal⟩

/-- Every move does one of these things to the queue. -/
theorem step_stores (s : Service) (m : Move) : s.Stores m := by
  by_cases work : ∃ id, m = .work id
  · obtain ⟨id, rfl⟩ := work
    by_cases working : ∃ w, s.stage? id = some (.working w)
    · exact work_stores working.choose_spec
    · exact work_idle fun w at_ => working ⟨w, at_⟩
  by_cases envelope : ∃ e type, m = .envelope e type
  · obtain ⟨e, type, rfl⟩ := envelope
    exact .files (sendEnvelope_files s e type) rfl rfl
  obtain ⟨added, o, moved, became⟩ := step_moved s m
  obtain ⟨made, queue⟩ := moved.keeps (fun id same => work ⟨id, same⟩)
    fun e type same => envelope ⟨e, type, same⟩
  have quiet : s.arrivals m = [] ∧ s.recounts m = none ∧ s.removal? m = none := by
    cases m with
    | work id => exact absurd ⟨id, rfl⟩ work
    | envelope e type => exact absurd ⟨e, type, rfl⟩ envelope
    | _ => exact ⟨rfl, rfl, rfl⟩
  obtain ⟨none_, fresh, stays⟩ := quiet
  exact .files (none_ ▸ became.files made queue) fresh stays

end Service

end Outbox
