import Outbox.Proofs.Arrivals
import Outbox.Proofs.Restart

/-! # The ledger of deliveries

All deliveries that the queue and the tasks of a service ever meet are written down once: those that
it began with, and each new one when it is put in the queue. An id stands for one of them, whatever
attempts were made, and so does the key of a file that has such an id.
-/

namespace Outbox

open Storage (Key Store)

theorem Known.mono {known more : List Pending} {x : Pending} (there : Known known x) :
    Known (known ++ more) x := by
  obtain ⟨d, member, same⟩ := there
  exact ⟨d, List.mem_append_left _ member, same⟩

namespace Service

variable {s t : Service} {m : Move} {e : Endpoint} {id : String} {j : Nat} {x : Pending}

/-- The move takes the delivery to this endpoint with this id out of the queue. -/
def Takes (s : Service) (m : Move) (e : Endpoint) (id : String) : Prop :=
  (∃ p, s.removal? m = some p ∧ p.endpoint = e ∧ p.id = id) ∨
    ∃ k ∈ s.evicted m, k.kind.endpoint = e ∧ k.id = id

theorem recounts_eq_some (again : s.recounts m = some x) : ∃ i p time purpose, m = .work i ∧
    s.stage? i = some (.working (.record p time purpose)) ∧ x = p.failed time := by
  unfold recounts at again
  split at again
  case h_2 => cases again
  case h_1 i =>
    split at again
    case h_2 => cases again
    case h_1 p time purpose at_ =>
      exact ⟨i, p, time, purpose, rfl, at_, (Option.some.inj again).symm⟩

theorem removal?_eq_some (gone : s.removal? m = some x) : ∃ i ending purpose, m = .work i ∧
    s.stage? i = some (.working (.remove x ending purpose)) := by
  unfold removal? at gone
  split at gone
  case h_2 => cases gone
  case h_1 i =>
    split at gone
    case h_2 => cases gone
    case h_1 p ending purpose at_ => exact ⟨i, ending, purpose, rfl, Option.some.inj gone ▸ at_⟩

theorem arrivals_of_working {i : Nat} {w : Work} (at_ : s.stage? i = some (.working w)) :
    s.arrivals (.work i) = s.filed w := by
  simp only [arrivals, at_]

/-- What is in the queue after a move was there before, is new, or was saved again. -/
theorem holds_step (held : (s.step m).queue.Holds x) :
    s.queue.Holds x ∨ x ∈ s.arrivals m ∨ s.recounts m = some x := by
  cases s.step_stores m with
  | files files =>
    rw [files.queue] at held
    exact (Queue.holds_saveAll held).symm.imp_right .inl
  | removes work at_ queue =>
    rw [queue] at held
    exact .inl (Queue.holds_remove.mp held).1
  | records work at_ queue =>
    rw [queue] at held
    rcases (Queue.holds_save_iff.mp held).1 with rfl | ⟨old, _⟩
    · refine .inr (.inr ?_)
      simp only [work, recounts, at_]
    · exact .inl old

/-- What was in the queue, or is new, is there after a move unless the move takes it out. -/
theorem has_step (there : s.queue.Has e id ∨ ∃ p ∈ s.arrivals m, p.endpoint = e ∧ p.id = id) :
    (s.step m).queue.Has e id ∨ s.Takes m e id := by
  cases s.step_stores m with
  | files files fresh =>
    rw [files.queue, Takes, evicted, fresh, Option.toList_none, List.append_nil]
    exact (Queue.Has.saveAll there).imp_right .inr
  | @removes i p ending purpose work at_ queue =>
    rw [work, arrivals_of_working at_] at there
    obtain ⟨x, held, home, name⟩ := there.resolve_right (by simp [filed])
    by_cases self : p.endpoint = e ∧ p.id = id
    · exact .inr (.inl ⟨p, by simp only [work, removal?, at_], self⟩)
    · refine .inl ⟨x, ?_, home, name⟩
      rw [queue]
      refine Queue.holds_remove.mpr ⟨held, fun same => self ?_⟩
      exact ⟨same.1.symm.trans home, same.2.symm.trans name⟩
  | @records i p time purpose work at_ queue =>
    have none_ : s.arrivals m = [] := by rw [work, arrivals_of_working at_, filed]
    have again : s.recounts m = some (p.failed time) := by simp only [work, recounts, at_]
    rw [none_] at there
    have present : s.queue.Has e id ∨ ∃ q ∈ [p.failed time], q.endpoint = e ∧ q.id = id :=
      .inl (there.resolve_right (by simp))
    rw [queue, Takes, evicted, none_, again]
    exact (Queue.Has.saveAll present).imp_right .inr

/-- It is reported when the store deletes deliveries. -/
theorem evicted_told (some_ : s.evicted m ≠ []) : .report Store.pruneReport ∈ s.news m := by
  cases s.step_stores m with
  | files files fresh =>
    rw [evicted, fresh, Option.toList_none, List.append_nil] at some_
    obtain ⟨hs, shape, told⟩ := files.journal
    exact (mem_news shape).mpr (told some_)
  | removes work at_ =>
    rw [evicted, work, arrivals_of_working at_] at some_
    simp only [filed, recounts, at_, Option.toList_none, List.append_nil] at some_
    exact absurd rfl some_
  | records work at_ queue told =>
    apply told
    rw [evicted, work, arrivals_of_working at_] at some_
    simpa only [filed, recounts, at_, Option.toList_some, List.nil_append, Queue.evicted,
      List.append_nil] using some_

/-- What the store deletes in a move, and what it has afterwards, was there before, is the file of a
new delivery or of one that is saved again. -/
theorem mem_keys_step {k : Key} (found : k ∈ s.evicted m ∨ k ∈ (s.step m).queue.store.keys) :
    k ∈ s.queue.store.keys ∨
      ∃ p ∈ s.arrivals m ++ (s.recounts m).toList, p.key? = some k := by
  rcases found with gone | left
  · exact Queue.mem_keys_of_saveAll.1 gone
  · cases s.step_stores m with
    | files files fresh =>
      rw [files.queue] at left
      rw [fresh, Option.toList_none, List.append_nil]
      exact Queue.mem_keys_of_saveAll.2 left
    | @removes i p ending purpose work at_ queue =>
      rw [queue] at left
      exact .inl (Queue.mem_keys_of_remove left)
    | @records i p time purpose work at_ queue =>
      have again : s.recounts m = some (p.failed time) := by simp only [work, recounts, at_]
      have none_ : s.arrivals m = [] := by rw [work, arrivals_of_working at_, filed]
      rw [queue] at left
      rw [again, none_]
      exact Queue.mem_keys_of_saveAll.2 left

/-! ## What tasks know -/

theorem Filled.view {ps : List Pending} (filled : Filled ps s t) : t.view = s.view := by
  obtain ⟨o, fills, became⟩ := filled
  exact (congrArg Outline.view became.outline).trans fills.same.2

theorem Filled.size {ps : List Pending} (filled : Filled ps s t) :
    s.tasks.length ≤ t.tasks.length := by
  obtain ⟨o, fills, became⟩ := filled
  exact became.size

/-- Dealing with files leaves the tasks alone. -/
theorem perform_view (s : Service) (w : Work) :
    (s.perform w).1.view = s.view ∧ s.tasks.length ≤ (s.perform w).1.tasks.length := by
  have of {ps : List Pending} {t : Service} (filled : Filled ps s t) :
      t.view = s.view ∧ s.tasks.length ≤ t.tasks.length :=
    ⟨filled.view, filled.size⟩
  cases w with
  | enqueue e payload => exact of (enqueue_filled s e payload)
  | persist e => exact of (persistFinal_filled s e)
  | cache e => exact of (writeSnapshot_quiet s e).filled
  | remove p ending purpose => exact ⟨rfl, Nat.le_refl _⟩
  | record p time purpose => exact ⟨rfl, Nat.le_refl _⟩
  | discard e outcome => exact of (deleteSnapshot_quiet s e).filled
  | resurrect =>
    obtain ⟨ps, filled⟩ := resurrect_filled s
    exact of filled

theorem work_view {i : Nat} {w : Work} (at_ : s.stage? i = some (.working w)) :
    (s.step (.work i)).view = Function.update s.view i (Stage.worked (s.perform w).2).view := by
  obtain ⟨view, size⟩ := s.perform_view w
  have there : ((s.perform w).1.stage? i).isSome := by
    have inside : (s.stage? i).isSome := by simp [at_]
    exact isSome_stage?.mpr (Nat.lt_of_lt_of_le (isSome_stage?.mp inside) size)
  rw [← view, ← view_setStage there]
  simp only [step, work, at_]

theorem crash_view (s : Service) (e : Envelope) : ∃ n, (s.step (.envelope e .crash)).view =
    Function.update s.view n (.idle (s.arrivals (.envelope e .crash))) := by
  have filled := (persistFinal_filled (s.markFinalized e) e).view
  refine ⟨((s.markFinalized e).persistFinal e).1.tasks.length, ?_⟩
  have spawned := view_addTask (((s.markFinalized e).persistFinal e).1.wake
    ((s.markFinalized e).persistFinal e).1.tasks.length) ⟨true, none, .spawned (.sendFinal e
      ((s.markFinalized e).persistFinal e).2.1 ((s.markFinalized e).persistFinal e).2.2)⟩
  have woken : (((s.markFinalized e).persistFinal e).1.wake
      ((s.markFinalized e).persistFinal e).1.tasks.length).view = s.view := filled
  rw [woken] at spawned
  exact spawned

/-- Without new deliveries a task meets those that it knew and those in the queue. -/
theorem pendings_of_other (working : ¬∃ i w, m = .work i ∧ s.stage? i = some (.working w))
    (crash : ¬∃ e, m = .envelope e .crash) (tidy : s.queue.Tidy)
    (known : x ∈ ((s.step m).view j).pendings) :
    (∃ y ∈ (s.view j).pendings, x.origin = y.origin) ∨ s.queue.Holds x := by
  have same (view : (s.step m).view = s.view) :
      (∃ y ∈ (s.view j).pendings, x.origin = y.origin) ∨ s.queue.Holds x :=
    .inl ⟨x, view ▸ known, rfl⟩
  have of_view {o : Outline} {added : List Happening} (became : Becomes added o s (s.step m))
      (members : x ∈ (o.view j).pendings → x ∈ (s.view j).pendings ∨ s.queue.Holds x) :
      (∃ y ∈ (s.view j).pendings, x.origin = y.origin) ∨ s.queue.Holds x := by
    have view : (s.step m).view = o.view := congrArg Outline.view became.outline
    rw [view] at known
    exact (members known).imp_left fun mine => ⟨x, mine, rfl⟩
  obtain ⟨added, o, moved, became⟩ := step_moved s m
  cases moved with
  | quiet => exact of_view became .inl
  | @acts id _ _ act =>
    refine of_view became fun member => ?_
    by_cases self : j = id
    · rw [self] at member ⊢
      exact (act.pendings tidy).1 x member
    · rw [(act.near self).pendings] at member
      exact .inl member
  | @works id _ deed =>
    exact same (congrArg Service.view (step_work_of_idle fun w at_ => working ⟨id, w, rfl, at_⟩))
  | @answers id p rest reply view =>
    refine of_view became fun member => .inl ?_
    by_cases self : j = id
    · rw [self, Outline.put_view_self] at member
      rw [self, view]
      exact member
    · rwa [Outline.put_view_of_ne _ _ self] at member
  | @arrives p o' n e type fills fresh =>
    cases type with
    | crash => exact absurd ⟨e, rfl⟩ crash
    | normalEnd | periodic => exact same (congrArg Outline.view (spawn_quiet s rfl).outline)

/-- What a task knows after a move it knew before, apart from the attempts, or it is in the queue,
or it is new. -/
theorem pendings_step (tidy : s.queue.Tidy) (known : x ∈ ((s.step m).view j).pendings) :
    (∃ y ∈ (s.view j).pendings, x.origin = y.origin) ∨ s.queue.Holds x ∨ x ∈ s.arrivals m := by
  by_cases working : ∃ i w, m = .work i ∧ s.stage? i = some (.working w)
  · obtain ⟨i, w, rfl, at_⟩ := working
    rw [work_view at_, Function.update_apply] at known
    split at known
    case isFalse => exact .inl ⟨x, known, rfl⟩
    case isTrue self =>
      have shown : s.view j = (Stage.working w).view := self ▸ view_of_stage? at_
      rw [shown, arrivals_of_working at_]
      cases w with
      | enqueue e payload | persist e => exact .inr (.inr known)
      | cache e | discard e outcome | resurrect => exact absurd known List.not_mem_nil
      | remove p ending purpose => exact .inl ⟨x, known, rfl⟩
      | record p time purpose =>
        rcases List.mem_cons.mp known with rfl | rest
        · exact .inl ⟨p, List.mem_cons_self, p.origin_failed time⟩
        · exact .inl ⟨x, List.mem_cons_of_mem _ rest, rfl⟩
  by_cases crash : ∃ e, m = .envelope e .crash
  · obtain ⟨e, rfl⟩ := crash
    obtain ⟨n, view⟩ := s.crash_view e
    rw [view, Function.update_apply] at known
    split at known
    · exact .inr (.inr known)
    · exact .inl ⟨x, known, rfl⟩
  refine (pendings_of_other working crash tidy known).imp_right .inl

/-! ## The ledger -/

/-- Everything that the queue and the tasks know is in the ledger, and ids are used once in it. -/
structure Ledger (known : List Pending) (s : Service) : Prop where
  injective : ∀ i k, s.made ≤ i → s.made ≤ k → s.idOf i = s.idOf k → i = k
  fresh : ∀ k, s.made ≤ k → ∀ p ∈ known, p.id ≠ s.idOf k
  agree : ∀ a ∈ known, ∀ b ∈ known, a.id = b.id → a.origin = b.origin
  queue : ∀ p, s.queue.Holds p → Known known p
  tasks : ∀ i, ∀ p ∈ (s.view i).pendings, Known known p

variable {known : List Pending}

theorem Ledger.eq_of_id (ledger : s.Ledger known) {a b : Pending} (first : Known known a)
    (second : Known known b) (same : a.id = b.id) : a.origin = b.origin := by
  obtain ⟨d, member, origin⟩ := first
  obtain ⟨d', member', origin'⟩ := second
  have ids : d.id = d'.id :=
    (Pending.id_of_origin origin).symm.trans (same.trans (Pending.id_of_origin origin'))
  rw [origin, origin', ledger.agree d member d' member' ids]

/-- With distinct ids the ledger begins with what is in the queue. -/
theorem Initial.ledger (initial : s.Initial) (ids : s.DistinctIds) : s.Ledger s.queue.held := by
  have tidy := initial.reachable.inOrder.tidy
  refine ⟨ids.injective, ?_, ?_, ?_, ?_⟩
  · intro k new p member same
    exact ids.unused p.endpoint p (tidy.mem_held.mp member) k new same.symm
  · intro a member b member' same
    have there := tidy.mem_held.mp member
    have there' := tidy.mem_held.mp member'
    rw [tidy.eq_of_id there there' (ids.homes _ _ a there b there' same) same]
  · exact fun p held => ⟨p, tidy.mem_held.mpr held, rfl⟩
  · intro i p member
    rw [initial.idle] at member
    cases member

/-- The ids of the new deliveries are the next ones, each used once. -/
theorem arrivals_ids (s : Service) (m : Move) :
    (s.step m).idOf = s.idOf ∧ (s.step m).made = s.made + (s.arrivals m).length ∧
      (s.arrivals m).map (·.id) = (List.range' s.made (s.arrivals m).length).map s.idOf ∧
      ∀ p ∈ s.arrivals m, p.origin = p := by
  have still {i : Nat} {w : Work} (work : m = .work i) (at_ : s.stage? i = some (.working w))
      (none_ : s.filed w = [])
      (same : (s.perform w).1.idOf = s.idOf ∧ (s.perform w).1.made = s.made) :
      (s.step m).idOf = s.idOf ∧ (s.step m).made = s.made + (s.arrivals m).length ∧
      (s.arrivals m).map (·.id) = (List.range' s.made (s.arrivals m).length).map s.idOf ∧
      ∀ p ∈ s.arrivals m, p.origin = p := by
    have nothing : s.arrivals m = [] := by rw [work, arrivals_of_working at_, none_]
    have stepped : s.step m = (s.perform w).1.setStage i (.worked (s.perform w).2) := by
      simp only [work, step, Service.work, at_]
    rw [nothing, stepped]
    exact ⟨same.1, same.2, rfl, by simp⟩
  cases s.step_stores m with
  | files files => exact ⟨files.idOf, files.made, files.ids, files.origin⟩
  | removes work at_ => exact still work at_ rfl ⟨rfl, rfl⟩
  | records work at_ => exact still work at_ rfl ⟨rfl, rfl⟩

theorem Ledger.of_recount (ledger : s.Ledger known) (again : s.recounts m = some p) :
    Known known p := by
  obtain ⟨i, q, time, purpose, rfl, at_, rfl⟩ := recounts_eq_some again
  have mine : q ∈ (s.view i).pendings := by
    rw [view_of_stage? at_]
    exact List.mem_cons_self
  obtain ⟨d, there, same⟩ := ledger.tasks i q mine
  exact ⟨d, there, (q.origin_failed time).trans same⟩

theorem id_of_arrival (new : p ∈ s.arrivals m) :
    ∃ k, s.made ≤ k ∧ k < (s.step m).made ∧ p.id = s.idOf k := by
  obtain ⟨_, made, ids, _⟩ := s.arrivals_ids m
  have listed : p.id ∈ (s.arrivals m).map (·.id) := List.mem_map_of_mem new
  rw [ids] at listed
  obtain ⟨k, inside, name⟩ := List.mem_map.mp listed
  obtain ⟨low, high⟩ := List.mem_range'_1.mp inside
  exact ⟨k, low, made ▸ high, name.symm⟩

theorem Ledger.arrivals_nodup (ledger : s.Ledger known) (m : Move) :
    ((s.arrivals m).map (·.id)).Nodup := by
  rw [(s.arrivals_ids m).2.2.1]
  refine List.Nodup.map_on ?_ List.nodup_range'
  intro a inside b inside' same
  exact ledger.injective a b (List.mem_range'_1.mp inside).1 (List.mem_range'_1.mp inside').1 same

/-- A move writes its new deliveries into the ledger. -/
theorem Ledger.step (ledger : s.Ledger known) (tidy : s.queue.Tidy) (m : Move) :
    (s.step m).Ledger (known ++ s.arrivals m) := by
  obtain ⟨idOf, made, _⟩ := s.arrivals_ids m
  have apart (a : Pending) (old : a ∈ known) (b : Pending) (new : b ∈ s.arrivals m) :
      a.id ≠ b.id := by
    obtain ⟨k, later, _, name⟩ := id_of_arrival new
    rw [name]
    exact ledger.fresh k later a old
  constructor
  case injective =>
    intro i k new new' same
    rw [idOf] at same
    exact ledger.injective i k (by omega) (by omega) same
  case fresh =>
    intro k new p member same
    rw [idOf] at same
    rcases List.mem_append.mp member with old | recent
    · exact ledger.fresh k (by omega) p old same
    · obtain ⟨i, low, high, name⟩ := id_of_arrival recent
      have equal := ledger.injective k i (by omega) low (same.symm.trans name)
      omega
  case agree =>
    intro a member b member' same
    rcases List.mem_append.mp member with old | new <;>
      rcases List.mem_append.mp member' with old' | new'
    · exact ledger.agree a old b old' same
    · exact absurd same (apart a old b new')
    · exact absurd same.symm (apart b old' a new)
    · rw [List.inj_on_of_nodup_map (ledger.arrivals_nodup m) new new' same]
  case queue =>
    intro p held
    rcases holds_step held with before | new | again
    · exact (ledger.queue p before).mono
    · exact ⟨p, List.mem_append_right _ new, rfl⟩
    · exact (ledger.of_recount again).mono
  case tasks =>
    intro i p member
    rcases pendings_step tidy member with ⟨y, mine, same⟩ | held | new
    · obtain ⟨d, there, origin'⟩ := ledger.tasks i y mine
      exact ⟨d, List.mem_append_left _ there, same.trans origin'⟩
    · exact (ledger.queue p held).mono
    · exact ⟨p, List.mem_append_right _ new, rfl⟩

/-- A run writes the new deliveries into the ledger. -/
theorem Ledger.run (ledger : s.Ledger known) (order : s.outline.InOrder) (ms : List Move) :
    (s.run ms).Ledger (known ++ s.accepted ms) := by
  induction ms generalizing s known with
  | nil => exact (List.append_nil known).symm ▸ ledger
  | cons m ms ih =>
    have next := ih (ledger.step order.tidy m) (step_inOrder order m)
    rw [List.append_assoc] at next
    exact next

end Service

end Outbox
