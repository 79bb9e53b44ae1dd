import Outbox.Proofs.LaneOrder

/-! # One delivery for each id

Ids are drawn from an endless supply in which none comes twice. So an id stands for one delivery
to one endpoint, in the queue and in every task, and an id that was used is never used again.
-/

namespace Outbox

namespace Queue

theorem holds_save {q : Queue} {p x : Pending} (held : (q.save p).1.Holds x) :
    x = p ∨ (q.Holds x ∧ ¬(x.endpoint = p.endpoint ∧ x.id = p.id)) := by
  unfold save at held
  split at held
  case h_1 => exact holds_remember.mp held
  case h_2 key _ =>
    dsimp only at held
    split at held
    case h_1 pruned _ => exact holds_remember.mp (holds_forgetAll.mp held).1
    case h_2 => exact holds_remember.mp held

theorem holds_remove {q : Queue} {p x : Pending} :
    (q.remove p).1.Holds x ↔ q.Holds x ∧ ¬(x.endpoint = p.endpoint ∧ x.id = p.id) := by
  unfold remove
  exact holds_forget

theorem Tidy.holds_of_mem {q : Queue} (tidy : q.Tidy) {e : Endpoint} {p : Pending}
    (member : p ∈ q.pending e) : q.Holds p ∧ p.endpoint = e := by
  have home := tidy.home e p member
  exact ⟨by rw [Holds, home]; exact member, home⟩

end Queue

/-- No id is used twice: not by the deliveries to come, and not by those that are there already. -/
structure Service.DistinctIds (s : Service) : Prop where
  injective : ∀ j k, s.made ≤ j → s.made ≤ k → s.idOf j = s.idOf k → j = k
  unused : ∀ e, ∀ p ∈ s.queue.pending e, ∀ k, s.made ≤ k → s.idOf k ≠ p.id
  homes : ∀ e f, ∀ p ∈ s.queue.pending e, ∀ q ∈ s.queue.pending f, p.id = q.id → e = f

/-- Where the delivery with an id goes, for the ids in use. -/
abbrev Homes := String → Option Endpoint

/-- All that `home` says holds in `home'` too. -/
def Homes.Extends (home home' : Homes) : Prop := ∀ i e, home i = some e → home' i = some e

/-- The deliveries in the queue and in the tasks go where `home` says; ids to come are unused. -/
structure Outline.Traced (idOf : Nat → String) (home : Homes) (o : Outline) : Prop where
  injective : ∀ j k, o.made ≤ j → o.made ≤ k → idOf j = idOf k → j = k
  fresh : ∀ k, o.made ≤ k → home (idOf k) = none
  queue : ∀ p, o.queue.Holds p → home p.id = some p.endpoint
  tasks : ∀ id, ∀ p ∈ (o.view id).pendings, home p.id = some p.endpoint
  nodup : ∀ id, ((o.view id).pendings.map (·.id)).Nodup

namespace View

/-- The task is where it was, or it got the lane that it waited for. -/
def Near (v w : View) : Prop := w = v ∨ w = v.enter

variable {v w x : View}

theorem Near.refl (v : View) : v.Near v := .inl rfl

theorem Near.trans (first : v.Near w) (second : w.Near x) : v.Near x := by
  rcases first with rfl | rfl <;> rcases second with rfl | rfl
  · exact .inl rfl
  · exact .inr rfl
  · exact .inr rfl
  · exact .inr (enter_enter v)

theorem Near.hand? (near : v.Near w) : w.hand? = v.hand? := by
  rcases near with rfl | rfl
  · rfl
  · exact enter_hand? v

theorem Near.pendings (near : v.Near w) : w.pendings = v.pendings := by
  rcases near with rfl | rfl
  · rfl
  · exact enter_pendings v

end View

namespace Outline

variable {o : Outline}

theorem near_enter (o : Outline) (granted : List Nat) (j : Nat) :
    (o.view j).Near ((o.enter granted).view j) := by
  by_cases member : j ∈ granted
  · exact .inr (if_pos member)
  · exact .inl (if_neg member)

theorem near_leave (o : Outline) (id : Nat) (e : Endpoint) (j : Nat) :
    (o.view j).Near ((o.leave id e).view j) :=
  near_enter { o with lanes := o.lanes.set e ((o.lanes.get e).leave id).1 }
    ((o.lanes.get e).leave id).2 j

theorem near_request (o : Outline) (id : Nat) (e : Endpoint) (j : Nat) :
    (o.view j).Near ((o.request id e).view j) :=
  near_enter { o with lanes := o.lanes.set e ((o.lanes.get e).request id).1 }
    ((o.lanes.get e).request id).2 j

theorem near_put (o : Outline) {id j : Nat} (v : View) (other : j ≠ id) :
    (o.view j).Near ((o.put id v).view j) :=
  .inl (put_view_of_ne o v other)

end Outline

section

variable {s : Service} {o o' : Outline} {id j : Nat} {added : List Happening} {ps : List Pending}

/-- A task that goes on leaves the others alone, apart from lanes. -/
theorem Onward.near (next : Onward id ps o added o') (other : j ≠ id) :
    (o.view j).Near (o'.view j) := by
  cases next with
  | rests => exact o.near_put _ other
  | asks => exact (o.near_put _ other).trans (Outline.near_request _ _ _ j)
  | givesUp => exact o.near_put _ other

/-- A task that goes on has nothing in hand, or gives up the next delivery. -/
theorem Onward.own (next : Onward id ps o added o') :
    (o'.view id).pendings <:+ ps ∧
      ((added = [] ∧ (o'.view id).hand? = none) ∨
        ∃ p rest, added = [.report (.drop p .stale)] ∧ p :: rest <:+ ps ∧
          o'.view id = .has p (.removing (.dropped .stale false)) rest) := by
  cases next with
  | rests =>
    rw [Outline.put_view_self]
    exact ⟨List.nil_suffix, .inl ⟨rfl, rfl⟩⟩
  | @asks p rest next =>
    have near := Outline.near_request (o.put id (.waits p rest)) id p.endpoint id
    rw [Outline.put_view_self] at near
    rw [near.pendings, near.hand?]
    exact ⟨next, .inl ⟨rfl, rfl⟩⟩
  | @givesUp p rest next =>
    rw [Outline.put_view_self]
    exact ⟨next, .inr ⟨p, rest, rfl, next, rfl⟩⟩

/-- What a task has in hand after going on, it is giving up without the lane. -/
theorem Onward.phase (next : Onward id ps o added o') {p : Pending} {phase : Phase}
    (hand : (o'.view id).hand? = some (p, phase)) :
    phase = .removing (.dropped .stale false) := by
  rcases next.own.2 with ⟨_, free⟩ | ⟨q, rest, _, _, view⟩
  · rw [free] at hand
    cases hand
  · rw [view] at hand
    cases hand
    rfl

/-- A step of a task leaves the others alone, apart from lanes. -/
theorem Act.near (act : Act s id added o) (other : j ≠ id) : (s.view j).Near (o.view j) := by
  cases act with
  | idle => exact .refl _
  | goes known free away next => exact next.near other
  | @yields p rest _ _ view next =>
    exact (s.outline.near_leave id p.endpoint j).trans (next.near other)
  | posts | accepts | refuses | counts => exact s.outline.near_put _ other
  | @holds p phase rest view verdict =>
    exact (s.outline.near_leave id p.endpoint j).trans (Outline.near_put _ _ other)
  | @ends p ending rest later _ view next =>
    refine View.Near.trans ?_ (next.near other)
    split
    · exact s.outline.near_leave id p.endpoint j
    · exact .refl _

/-- After its step a task knows deliveries that it knew before, or that are in the queue. -/
theorem Act.pendings (tidy : s.queue.Tidy) (act : Act s id added o) :
    (∀ p ∈ (o.view id).pendings, p ∈ (s.view id).pendings ∨ s.queue.Holds p) ∧
      (((o.view id).pendings.map (·.id)).Sublist ((s.view id).pendings.map (·.id)) ∨
        ∃ e, ((o.view id).pendings.map (·.id)).Sublist ((s.queue.pending e).map (·.id))) := by
  have same {v : View} (view : o.view id = v) (shape : v.pendings.Sublist (s.view id).pendings) :
      (∀ p ∈ (o.view id).pendings, p ∈ (s.view id).pendings ∨ s.queue.Holds p) ∧
      (((o.view id).pendings.map (·.id)).Sublist ((s.view id).pendings.map (·.id)) ∨
        ∃ e, ((o.view id).pendings.map (·.id)).Sublist ((s.queue.pending e).map (·.id))) := by
    rw [view]
    exact ⟨fun p member => .inl (shape.subset member), .inl (shape.map _)⟩
  cases act with
  | idle => exact same rfl (List.Sublist.refl _)
  | @goes ps _ _ known free away next =>
    rcases known with mine | ⟨e, rfl⟩
    · exact same rfl (next.own.1.trans mine).sublist
    · refine ⟨fun p member => .inr ?_, .inr ⟨e, next.own.1.sublist.map _⟩⟩
      exact (tidy.holds_of_mem (next.own.1.subset member)).1
  | @yields p rest _ _ view next =>
    refine same rfl (next.own.1.trans ?_).sublist
    rw [view]
    exact List.suffix_cons p rest
  | @posts p current rest view found free =>
    obtain ⟨endpoint, name, held⟩ := tidy.get?_eq_some_iff.mp found
    rw [Outline.put_view_self, view]
    refine ⟨?_, .inl ?_⟩
    · intro q member
      rcases List.mem_cons.mp member with rfl | later
      · exact .inr held
      · exact .inl (List.mem_cons_of_mem _ later)
    · simp [View.has, View.holds, name]
  | accepts view verdict | refuses view verdict | counts view verdict =>
    apply same (Outline.put_view_self _ _ _)
    rw [view]
    exact List.Sublist.refl _
  | holds view verdict =>
    exact same (Outline.put_view_self _ _ _) (List.nil_sublist _)
  | @ends p ending rest later _ view next =>
    refine same rfl (next.own.1.trans ?_).sublist
    rw [view]
    exact List.suffix_cons p rest

variable {idOf : Nat → String} {home home' : Homes}

theorem Homes.Extends.refl (home : Homes) : home.Extends home := fun _ _ known => known

theorem Homes.Extends.trans {home'' : Homes} (first : home.Extends home')
    (second : home'.Extends home'') : home.Extends home'' :=
  fun i e known => second i e (first i e known)

theorem Outline.Traced.of_has (traced : o.Traced idOf home) {p : Pending} {phase : Phase}
    {rest : List Pending} (view : o.view id = .has p phase rest) :
    (∀ q ∈ p :: rest, home q.id = some q.endpoint) ∧ ((p :: rest).map (·.id)).Nodup := by
  have pendings : (o.view id).pendings = p :: rest := by
    rw [view]
    rfl
  rw [← pendings]
  exact ⟨traced.tasks id, traced.nodup id⟩

/-- What a task knows may change, as long as it goes where `home` says. -/
theorem Outline.Traced.put (traced : o.Traced idOf home) {v : View}
    (known : ∀ p ∈ v.pendings, home p.id = some p.endpoint)
    (nodup : (v.pendings.map (·.id)).Nodup) : (o.put id v).Traced idOf home where
  injective := traced.injective
  fresh := traced.fresh
  queue := traced.queue
  tasks j := by
    by_cases self : j = id
    · rw [self, Outline.put_view_self]
      exact known
    · rw [Outline.put_view_of_ne o v self]
      exact traced.tasks j
  nodup j := by
    by_cases self : j = id
    · rw [self, Outline.put_view_self]
      exact nodup
    · rw [Outline.put_view_of_ne o v self]
      exact traced.nodup j

theorem Outline.Traced.withQueue (traced : o.Traced idOf home) {q : Queue}
    (known : ∀ p, q.Holds p → home p.id = some p.endpoint) :
    (o.withQueue q).Traced idOf home :=
  ⟨traced.injective, traced.fresh, known, traced.tasks, traced.nodup⟩

/-- A new delivery takes an id that was not in use. -/
theorem Outline.Traced.enqueue (traced : o.Traced idOf home) {p : Pending}
    (id : p.id = idOf o.made) :
    home.Extends (Function.update home p.id (some p.endpoint)) ∧
      (o.enqueue p).Traced idOf (Function.update home p.id (some p.endpoint)) := by
  have unused : home p.id = none := by
    rw [id]
    exact traced.fresh o.made (Nat.le_refl _)
  have extends_ : home.Extends (Function.update home p.id (some p.endpoint)) := by
    intro i e known
    have other : i ≠ p.id := by
      rintro rfl
      rw [unused] at known
      cases known
    rw [Function.update_of_ne other, known]
  refine ⟨extends_, ?_, ?_, ?_, ?_, traced.nodup⟩
  · intro j k j_new k_new same
    exact traced.injective j k (Nat.le_of_succ_le j_new) (Nat.le_of_succ_le k_new) same
  · intro k new
    have later : o.made ≤ k := Nat.le_of_succ_le new
    have other : idOf k ≠ p.id := by
      rw [id]
      intro same
      have equal := traced.injective k o.made later (Nat.le_refl _) same
      rw [equal] at new
      exact absurd new (Nat.not_succ_le_self _)
    rw [Function.update_of_ne other, traced.fresh k later]
  · intro x held
    rcases Queue.holds_save held with rfl | ⟨old, _⟩
    · rw [Function.update_self]
    · exact extends_ _ _ (traced.queue x old)
  · intro task x member
    exact extends_ _ _ (traced.tasks task x member)

theorem Fills.traced (fills : Fills idOf o ps o') (traced : o.Traced idOf home) :
    ∃ home', home.Extends home' ∧ o'.Traced idOf home' ∧
      (∀ p ∈ ps, home' p.id = some p.endpoint) ∧
      ∀ x, o'.queue.Holds x → o.queue.Holds x ∨ home x.id = none := by
  induction fills generalizing home with
  | nil => exact ⟨home, .refl home, traced, by simp, fun x held => .inl held⟩
  | @cons o o' ps p id others ih =>
    obtain ⟨more, next⟩ := traced.enqueue id
    obtain ⟨home', more', last, known, held⟩ := ih next
    refine ⟨home', more.trans more', last, ?_, ?_⟩
    · intro q member
      rcases List.mem_cons.mp member with rfl | later
      · exact more' _ _ (Function.update_self _ _ _)
      · exact known q later
    · intro x there
      have unused : home p.id = none := id ▸ traced.fresh o.made (Nat.le_refl _)
      rcases held x there with before | fresh
      · rcases Queue.holds_save before with rfl | ⟨old, _⟩
        · exact .inr unused
        · exact .inl old
      · refine .inr (Option.eq_none_iff_forall_ne_some.mpr fun e used => ?_)
        rw [more _ _ used] at fresh
        cases fresh

theorem Act.traced (order : s.outline.InOrder) (traced : s.outline.Traced idOf home)
    (act : Act s id added o) : o.Traced idOf home := by
  obtain ⟨members, ids⟩ := act.pendings order.tidy
  have made := act.made
  refine ⟨?_, ?_, ?_, ?_, ?_⟩
  · rw [made]
    exact traced.injective
  · rw [made]
    exact traced.fresh
  · rw [act.queue]
    exact traced.queue
  · intro task p member
    by_cases self : task = id
    · subst self
      rcases members p member with mine | held
      · exact traced.tasks task p mine
      · exact traced.queue p held
    · rw [(act.near self).pendings] at member
      exact traced.tasks task p member
  · intro task
    by_cases self : task = id
    · subst self
      rcases ids with mine | ⟨e, queued⟩
      · exact (traced.nodup task).sublist mine
      · exact (order.tidy.ids e).sublist queued
    · rw [(act.near self).pendings]
      exact traced.nodup task

theorem Deed.traced (traced : s.outline.Traced s.idOf home) (deed : Deed s id o) :
    ∃ home', home.Extends home' ∧ o.Traced s.idOf home' := by
  cases deed with
  | idle => exact ⟨home, .refl home, traced⟩
  | @fills ps known o' made one free away =>
    obtain ⟨home', more, next, homes, _⟩ := made.traced traced
    refine ⟨home', more, next.put ?_ ?_⟩ <;> rcases one with rfl | ⟨p, member, rfl⟩
    · simp [View.idle]
    · simpa [View.idle] using homes p member
    · simp [View.idle]
    · simp [View.idle]
  | @removes p ending rest view =>
    obtain ⟨known, nodup⟩ := traced.of_has view
    refine ⟨home, .refl home, (traced.withQueue ?_).put known nodup⟩
    intro x held
    exact traced.queue x (Queue.holds_remove.mp held).1
  | @records p time rest view =>
    obtain ⟨known, nodup⟩ := traced.of_has view
    refine ⟨home, .refl home, (traced.withQueue ?_).put ?_ nodup⟩
    · intro x held
      rcases Queue.holds_save held with rfl | ⟨old, _⟩
      · exact known p List.mem_cons_self
      · exact traced.queue x old
    · intro q member
      rcases List.mem_cons.mp member with rfl | later
      · exact known p List.mem_cons_self
      · exact known q (List.mem_cons_of_mem _ later)

/-- Every move keeps one delivery for each id. -/
theorem Moved.traced {m : Move} (order : s.outline.InOrder) (traced : s.outline.Traced s.idOf home)
    (moved : Moved s m added o) : ∃ home', home.Extends home' ∧ o.Traced s.idOf home' := by
  cases moved with
  | quiet => exact ⟨home, .refl home, traced⟩
  | acts act => exact ⟨home, .refl home, act.traced order traced⟩
  | works deed => exact deed.traced traced
  | @answers id p rest reply view =>
    obtain ⟨known, nodup⟩ := traced.of_has view
    exact ⟨home, .refl home, traced.put known nodup⟩
  | @arrives p o' id e type fills fresh =>
    obtain ⟨home', more, next, homes, _⟩ := fills.traced traced
    refine ⟨home', more, next.put ?_ ?_⟩
    · simpa [View.idle] using homes p (by simp)
    · simp [View.idle]

/-- What is in the queue after a move was there before, is new, or was stored again by the task that
has it in hand. -/
theorem Moved.held {m : Move} (traced : s.outline.Traced s.idOf home) (moved : Moved s m added o)
    {x : Pending} (held : o.queue.Holds x) :
    s.queue.Holds x ∨ home x.id = none ∨
      ∃ id p time rest, m = .work id ∧ s.view id = .has p (.recording time) rest ∧
        x = p.failed time := by
  cases moved with
  | quiet => exact .inl held
  | acts act => exact .inl (act.queue ▸ held)
  | @works id _ deed =>
    cases deed with
    | idle => exact .inl held
    | fills made one free away =>
      obtain ⟨_, _, _, _, old⟩ := made.traced traced
      rcases old x held with before | fresh
      · exact .inl before
      · exact .inr (.inl fresh)
    | removes view => exact .inl (Queue.holds_remove.mp held).1
    | @records p time rest view =>
      rcases Queue.holds_save held with rfl | ⟨before, _⟩
      · exact .inr (.inr ⟨id, p, time, rest, rfl, view, rfl⟩)
      · exact .inl before
  | answers reply view => exact .inl held
  | arrives e type fills fresh =>
    obtain ⟨_, _, _, _, old⟩ := fills.traced traced
    rcases old x held with before | unused
    · exact .inl before
    · exact .inr (.inl unused)

end

namespace Service

variable {s : Service}

theorem Initial.tasks (initial : s.Initial) : s.tasks = [] := by
  induction initial with
  | start => rfl
  | load _ ih => exact ih

theorem Initial.idle (initial : s.Initial) (id : Nat) : s.view id = .idle [] := by
  simp [view, stage?, initial.tasks]

/-- An empty queue leaves only the ids to come. -/
theorem distinctIds_start {idOf : Nat → String} (injective : Function.Injective idOf)
    (config : Config) (made : Nat) (clock : Millis) (pending snapshots : Storage.Store) :
    (start config idOf made clock pending snapshots).DistinctIds where
  injective _ _ _ _ same := injective same
  unused e p member := by
    have empty : (start config idOf made clock pending snapshots).queue.pending e = [] := by
      cases e <;> rfl
    rw [empty] at member
    cases member
  homes e _ p member := by
    have empty : (start config idOf made clock pending snapshots).queue.pending e = [] := by
      cases e <;> rfl
    rw [empty] at member
    cases member

/-- The ids `d`, `dd`, `ddd` and so on. -/
def countedIds (n : Nat) : String := String.ofList (List.replicate (n + 1) 'd')

theorem countedIds_injective : Function.Injective countedIds := by
  intro j k same
  have lengths := congrArg (fun i => i.toList.length) same
  simpa [countedIds] using lengths

/-- With distinct ids each id stands for one delivery from the beginning. -/
theorem Initial.traced (initial : s.Initial) (ids : s.DistinctIds) :
    ∃ home, s.outline.Traced s.idOf home := by
  have tidy := initial.reachable.inOrder.tidy
  have idle (id : Nat) : s.outline.view id = .idle [] := initial.idle id
  refine ⟨fun i => Endpoint.all.find? fun e => s.queue.contains e i, ids.injective, ?_, ?_, ?_, ?_⟩
  · intro k new
    apply List.find?_eq_none.mpr
    intro e _ found
    obtain ⟨p, got⟩ := Option.isSome_iff_exists.mp found
    obtain ⟨rfl, name, held⟩ := tidy.get?_eq_some_iff.mp got
    exact ids.unused p.endpoint p held k new name.symm
  · intro p held
    have here : s.queue.contains p.endpoint p.id = true :=
      Option.isSome_iff_exists.mpr ⟨p, tidy.get?_eq_some_iff.mpr ⟨rfl, rfl, held⟩⟩
    cases first : Endpoint.all.find? fun e => s.queue.contains e p.id with
    | none => exact absurd here (List.find?_eq_none.mp first p.endpoint p.endpoint.mem_all)
    | some e =>
      have there : s.queue.contains e p.id = true :=
        List.find?_some (p := fun e => s.queue.contains e p.id) first
      obtain ⟨q, got⟩ := Option.isSome_iff_exists.mp there
      obtain ⟨rfl, name, held'⟩ := tidy.get?_eq_some_iff.mp got
      rw [ids.homes q.endpoint p.endpoint q held' p held name]
  · intro id p member
    rw [idle] at member
    cases member
  · intro id
    rw [idle]
    exact List.nodup_nil

/-- The id stands for one delivery, and the lanes and the queue are in order. -/
structure Sound (home : Homes) (s : Service) : Prop where
  order : s.outline.InOrder
  traced : s.outline.Traced s.idOf home

theorem Initial.sound (initial : s.Initial) (ids : s.DistinctIds) : ∃ home, s.Sound home := by
  obtain ⟨home, traced⟩ := initial.traced ids
  exact ⟨home, initial.reachable.inOrder, traced⟩

theorem Sound.step {home : Homes} (sound : s.Sound home) (m : Move) :
    ∃ home', home.Extends home' ∧ (s.step m).Sound home' := by
  obtain ⟨added, o, moved, became⟩ := step_moved s m
  obtain ⟨home', more, traced⟩ := moved.traced sound.order sound.traced
  refine ⟨home', more, ?_, ?_⟩
  · rw [became.outline]
    exact moved.inOrder sound.order
  · rw [became.outline, became.idOf]
    exact traced

theorem Sound.run {home : Homes} (sound : s.Sound home) (ms : List Move) :
    ∃ home', home.Extends home' ∧ (s.run ms).Sound home' := by
  induction ms generalizing s home with
  | nil => exact ⟨home, .refl home, sound⟩
  | cons m ms ih =>
    obtain ⟨home', more, next⟩ := sound.step m
    obtain ⟨home'', more', last⟩ := ih next
    exact ⟨home'', more.trans more', last⟩

end Service

end Outbox
