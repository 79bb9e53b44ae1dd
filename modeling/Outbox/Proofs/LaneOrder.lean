import Outbox.Proofs.Moves
import Outbox.Proofs.QueueContents

/-! # One task on each lane

The lane of an endpoint has at most one holder, and the lanes and the tasks agree on who holds them
and who waits. Every move keeps it so.
-/

namespace Outbox

namespace Outline

/-- Lanes have one permit each, and they agree with the tasks. -/
structure OnePerLane (o : Outline) : Prop where
  capacity : ∀ e, (o.lanes.get e).capacity = 1
  single : ∀ e, (o.lanes.get e).holders.length ≤ 1
  taken : ∀ e, (o.lanes.get e).waiting ≠ [] → (o.lanes.get e).holders ≠ []
  line : ∀ e, (o.lanes.get e).waiting.Nodup
  holds_iff : ∀ e id, id ∈ (o.lanes.get e).holders ↔ (o.view id).position = .holds e
  waits_iff : ∀ e id, id ∈ (o.lanes.get e).waiting ↔ (o.view id).position = .waits e

variable {o o' : Outline} {id j : Nat} {e : Endpoint} {v w : View}

@[simp]
theorem put_view_self (o : Outline) (id : Nat) (v : View) : (o.put id v).view id = v := by
  simp [put]

theorem put_view_of_ne (o : Outline) (v : View) (other : j ≠ id) :
    (o.put id v).view j = o.view j := by
  simp [put, other]

@[simp]
theorem put_put (o : Outline) (id : Nat) (v w : View) : (o.put id v).put id w = o.put id w := by
  simp [put]

/-- On the lanes only the positions of the tasks count. -/
theorem OnePerLane.congr (lanes : o.OnePerLane) (same : o'.lanes = o.lanes)
    (positions : ∀ id, (o'.view id).position = (o.view id).position) : o'.OnePerLane where
  capacity e := same ▸ lanes.capacity e
  single e := same ▸ lanes.single e
  taken e := same ▸ lanes.taken e
  line e := same ▸ lanes.line e
  holds_iff e id := by rw [same, positions, lanes.holds_iff]
  waits_iff e id := by rw [same, positions, lanes.waits_iff]

theorem OnePerLane.put (lanes : o.OnePerLane) (same : v.position = (o.view id).position) :
    (o.put id v).OnePerLane := by
  refine lanes.congr rfl fun j => ?_
  by_cases self : j = id
  · rw [self, put_view_self, same]
  · rw [put_view_of_ne o v self]

theorem OnePerLane.holders_eq (lanes : o.OnePerLane) (holds : (o.view id).position = .holds e) :
    (o.lanes.get e).holders = [id] := by
  have inside := (lanes.holds_iff e id).mpr holds
  have single := lanes.single e
  cases shape : (o.lanes.get e).holders with
  | nil => simp [shape] at inside
  | cons a rest =>
    rw [shape, List.length_cons] at single
    have none_ : rest = [] := List.length_eq_zero_iff.mp (by omega)
    rw [shape, none_, List.mem_singleton] at inside
    rw [inside, none_]

theorem OnePerLane.eq_of_holds (lanes : o.OnePerLane) (first : (o.view id).position = .holds e)
    (second : (o.view j).position = .holds e) : id = j := by
  have inside := (lanes.holds_iff e id).mpr first
  rw [lanes.holders_eq second, List.mem_singleton] at inside
  exact inside

/-- Another lane for one endpoint, with tasks that moved only there. -/
theorem OnePerLane.replace (lanes : o.OnePerLane) {lane : Permits Nat}
    (shape : o'.lanes = o.lanes.set e lane) (capacity : lane.capacity = 1)
    (single : lane.holders.length ≤ 1) (taken : lane.waiting ≠ [] → lane.holders ≠ [])
    (line : lane.waiting.Nodup)
    (holds : ∀ j, j ∈ lane.holders ↔ (o'.view j).position = .holds e)
    (waits : ∀ j, j ∈ lane.waiting ↔ (o'.view j).position = .waits e)
    (elsewhere : ∀ j f, f ≠ e →
      ((o'.view j).position = .holds f ↔ (o.view j).position = .holds f) ∧
      ((o'.view j).position = .waits f ↔ (o.view j).position = .waits f)) : o'.OnePerLane := by
  have here : o'.lanes.get e = lane := by rw [shape, PerEndpoint.get_set_self]
  have there {f : Endpoint} (other : f ≠ e) : o'.lanes.get f = o.lanes.get f := by
    rw [shape, PerEndpoint.get_set_of_ne _ _ other]
  refine ⟨?_, ?_, ?_, ?_, ?_, ?_⟩ <;> intro f <;> by_cases same : f = e
  · rw [same, here]; exact capacity
  · rw [there same]; exact lanes.capacity f
  · rw [same, here]; exact single
  · rw [there same]; exact lanes.single f
  · rw [same, here]; exact taken
  · rw [there same]; exact lanes.taken f
  · rw [same, here]; exact line
  · rw [there same]; exact lanes.line f
  · intro j; rw [same, here]; exact holds j
  · intro j; rw [there same, (elsewhere j f same).1]; exact lanes.holds_iff f j
  · intro j; rw [same, here]; exact waits j
  · intro j; rw [there same, (elsewhere j f same).2]; exact lanes.waits_iff f j

theorem leave_eq {lane : Permits Nat} {granted : List Nat}
    (left : (o.lanes.get e).leave id = (lane, granted)) :
    o.leave id e = ({ o with lanes := o.lanes.set e lane } : Outline).enter granted := by
  rw [Outline.leave, left]

theorem request_eq {lane : Permits Nat} {granted : List Nat}
    (asked : (o.lanes.get e).request id = (lane, granted)) :
    o.request id e = ({ o with lanes := o.lanes.set e lane } : Outline).enter granted := by
  rw [Outline.request, asked]

theorem enter_position_of_waits (waits : v.position = .waits e) : v.enter.position = .holds e := by
  rw [View.enter, waits]

/-- Who holds a lane and gives it back leaves it to the first in the line. -/
theorem OnePerLane.leave (lanes : o.OnePerLane) (holds : (o.view id).position = .holds e)
    (away : v.position = .away) : ((o.leave id e).put id v).OnePerLane := by
  have capacity := lanes.capacity e
  have holders := lanes.holders_eq holds
  have line := lanes.line e
  have apart : id ∉ (o.lanes.get e).waiting := by
    rw [lanes.waits_iff, holds]
    simp
  have others (j : Nat) (other : j ≠ id) : (o.view j).position ≠ .holds e := by
    intro same
    exact other (lanes.eq_of_holds same holds)
  cases waiting : (o.lanes.get e).waiting with
  | nil =>
    have left : (o.lanes.get e).leave id = (⟨1, [], []⟩, []) := by
      simp [Permits.leave, Permits.grant, holders, capacity, waiting]
    have shape : o.leave id e = { o with lanes := o.lanes.set e ⟨1, [], []⟩ } :=
      (leave_eq left).trans (Service.enter_nil _)
    rw [shape]
    apply lanes.replace rfl rfl (by simp) (by simp) List.nodup_nil
    all_goals intro j
    all_goals by_cases self : j = id
    · simp [self, away]
    · rw [put_view_of_ne _ v self]
      simpa using others j self
    · simp [self, away]
    · rw [put_view_of_ne _ v self]
      have empty := lanes.waits_iff e j
      simpa [waiting] using empty
    · intro f other
      simp [self, away, holds, Ne.symm other]
    · intro f other
      rw [put_view_of_ne _ v self]
      exact ⟨Iff.rfl, Iff.rfl⟩
  | cons first rest =>
    have left : (o.lanes.get e).leave id = (⟨1, [first], rest⟩, [first]) := by
      rw [waiting] at apart
      simp [Permits.leave, Permits.grant, holders, capacity, waiting, List.erase_of_not_mem apart]
    have shape : o.leave id e = ({ o with lanes := o.lanes.set e ⟨1, [first], rest⟩ } :
        Outline).put first (o.view first).enter :=
      (leave_eq left).trans (Service.enter_singleton _ _)
    have waits : (o.view first).position = .waits e := by
      rw [← lanes.waits_iff, waiting]
      simp
    have enters := enter_position_of_waits waits
    have distinct : first ≠ id := by
      rintro rfl
      rw [waiting] at apart
      simp at apart
    rw [waiting, List.nodup_cons] at line
    rw [shape]
    apply lanes.replace rfl rfl (by simp) (by simp) line.2
    all_goals intro j
    all_goals by_cases self : j = id
    · simp [self, away, Ne.symm distinct]
    · rw [put_view_of_ne _ v self]
      by_cases head : j = first
      · simp [head, enters]
      · rw [put_view_of_ne _ _ head]
        simpa [head] using others j self
    · have absent : id ∉ rest := by
        rw [waiting] at apart
        exact fun member => apart (List.mem_cons_of_mem _ member)
      simp [self, away, absent]
    · rw [put_view_of_ne _ v self]
      by_cases head : j = first
      · simp [head, enters, line.1]
      · rw [put_view_of_ne _ _ head]
        have tail := lanes.waits_iff e j
        simpa [waiting, head] using tail
    · intro f other
      simp [self, away, holds, Ne.symm other]
    · intro f other
      rw [put_view_of_ne _ v self]
      by_cases head : j = first
      · simp [head, enters, waits, Ne.symm other]
      · rw [put_view_of_ne _ _ head]
        exact ⟨Iff.rfl, Iff.rfl⟩

/-- Who asks for a lane gets it if it is free, and waits otherwise. -/
theorem OnePerLane.request (lanes : (o.put id (.idle [])).OnePerLane)
    (waits : v.position = .waits e) : ((o.put id v).request id e).OnePerLane := by
  have capacity : (o.lanes.get e).capacity = 1 := lanes.capacity e
  have line : (o.lanes.get e).waiting.Nodup := lanes.line e
  have single : (o.lanes.get e).holders.length ≤ 1 := lanes.single e
  have apart : id ∉ (o.lanes.get e).waiting := by
    intro member
    have position := (lanes.waits_iff e id).mp member
    simp [View.idle] at position
  have outside : id ∉ (o.lanes.get e).holders := by
    intro member
    have position := (lanes.holds_iff e id).mp member
    simp [View.idle] at position
  have holds_iff (j : Nat) (other : j ≠ id) :
      j ∈ (o.lanes.get e).holders ↔ (o.view j).position = .holds e := by
    have known := lanes.holds_iff e j
    rwa [put_view_of_ne o _ other] at known
  have waits_iff (j : Nat) (other : j ≠ id) :
      j ∈ (o.lanes.get e).waiting ↔ (o.view j).position = .waits e := by
    have known := lanes.waits_iff e j
    rwa [put_view_of_ne o _ other] at known
  cases holders : (o.lanes.get e).holders with
  | nil =>
    have free : (o.lanes.get e).waiting = [] := by
      by_contra busy
      exact lanes.taken e busy holders
    have asked : (o.lanes.get e).request id = (⟨1, [id], []⟩, [id]) := by
      simp [Permits.request, Permits.grant, holders, capacity, free]
    have shape : (o.put id v).request id e =
        ({ o with lanes := o.lanes.set e ⟨1, [id], []⟩ } : Outline).put id v.enter := by
      rw [request_eq (o := o.put id v) asked, Service.enter_singleton]
      simp [Outline.put]
    have enters := enter_position_of_waits waits
    rw [shape]
    apply lanes.replace rfl rfl (by simp) (by simp) List.nodup_nil
    all_goals intro j
    all_goals by_cases self : j = id
    · simp [self, enters]
    · rw [put_view_of_ne _ _ self]
      have known := holds_iff j self
      simpa [holders, self] using known
    · simp [self, enters]
    · rw [put_view_of_ne _ _ self]
      have known := waits_iff j self
      simpa [free] using known
    · intro f other
      simp [self, enters, View.idle, Ne.symm other]
    · intro f other
      rw [put_view_of_ne _ _ self, put_view_of_ne _ _ self]
      exact ⟨Iff.rfl, Iff.rfl⟩
  | cons holder others =>
    have alone : others = [] := by
      rw [holders, List.length_cons] at single
      exact List.length_eq_zero_iff.mp (by omega)
    subst alone
    have asked : (o.lanes.get e).request id =
        (⟨1, [holder], (o.lanes.get e).waiting ++ [id]⟩, []) := by
      simp [Permits.request, Permits.grant, holders, capacity]
    have shape : (o.put id v).request id e =
        ({ o with lanes := o.lanes.set e ⟨1, [holder], (o.lanes.get e).waiting ++ [id]⟩ } :
          Outline).put id v :=
      (request_eq (o := o.put id v) asked).trans (Service.enter_nil _)
    have distinct : holder ≠ id := by
      rintro rfl
      simp [holders] at outside
    rw [shape]
    apply lanes.replace rfl rfl (by simp) (by simp)
    · rw [List.nodup_append]
      refine ⟨line, by simp, ?_⟩
      intro a member b last
      rw [List.mem_singleton] at last
      rintro rfl
      exact apart (last ▸ member)
    all_goals intro j
    all_goals by_cases self : j = id
    · simp [self, waits, Ne.symm distinct]
    · rw [put_view_of_ne _ _ self]
      have known := holds_iff j self
      simpa [holders] using known
    · simp [self, waits]
    · rw [put_view_of_ne _ _ self]
      have known := waits_iff j self
      simpa [self] using known
    · intro f other
      simp [self, waits, View.idle, Ne.symm other]
    · intro f other
      rw [put_view_of_ne _ _ self, put_view_of_ne _ _ self]
      exact ⟨Iff.rfl, Iff.rfl⟩

/-- The queue is tidy and the lanes are in order. -/
structure InOrder (o : Outline) : Prop where
  tidy : o.queue.Tidy
  lanes : o.OnePerLane

end Outline

open Outline

section

variable {s : Service} {o o' : Outline} {added : List Happening} {id : Nat} {ps : List Pending}

theorem Phase.onLane_of_verdict? {config : Config} {p : Pending} {phase : Phase}
    {verdict : Verdict} (decided : phase.verdict? config p = some verdict) :
    phase.onLane = true := by
  cases phase with
  | answered a | recorded => rfl
  | posted | recording time | removing ending | removed ending => cases decided

theorem View.position_has {p : Pending} {phase : Phase} {rest : List Pending}
    (onLane : phase.onLane = true) : (View.has p phase rest).position = .holds p.endpoint := by
  rw [View.has, if_pos onLane]

theorem Onward.lanes (next : Onward id ps o added o') (lanes : (o.put id (.idle [])).OnePerLane) :
    o'.OnePerLane := by
  cases next with
  | rests => exact lanes
  | asks => exact lanes.request rfl
  | @givesUp p rest next =>
    have same : (View.has p (.removing (.dropped .stale false)) rest).position =
        ((o.put id (.idle [])).view id).position := by
      rw [put_view_self]
      rfl
    have placed := lanes.put same
    rwa [put_put] at placed

theorem Onward.queue (next : Onward id ps o added o') : o'.queue = o.queue := by
  cases next <;> rfl

theorem Act.queue (act : Act s id added o) : o.queue = s.queue := by
  cases act with
  | goes known free away next => exact next.queue
  | yields view next => exact next.queue
  | @ends p ending rest later o view next =>
    rw [next.queue]
    split <;> rfl
  | _ => rfl

theorem Onward.made (next : Onward id ps o added o') : o'.made = o.made := by
  cases next <;> rfl

theorem Act.made (act : Act s id added o) : o.made = s.made := by
  cases act with
  | goes known free away next => exact next.made
  | yields view next => exact next.made
  | @ends p ending rest later o view next =>
    rw [next.made]
    split <;> rfl
  | _ => rfl

theorem Act.lanes (tidy : s.queue.Tidy) (lanes : s.outline.OnePerLane) (act : Act s id added o) :
    o.OnePerLane := by
  have has {p : Pending} {phase phase' : Phase} {rest : List Pending}
      (view : s.view id = .has p phase rest) (same : phase'.onLane = phase.onLane) :
      (s.outline.put id (.has p phase' rest)).OnePerLane := by
    apply lanes.put
    rw [show s.outline.view id = s.view id from rfl, view, View.has, View.has, same]
  cases act with
  | idle waits => exact lanes
  | goes known free away next => exact next.lanes (lanes.put (Eq.symm away))
  | @yields p rest _ _ view next =>
    refine next.lanes (lanes.leave ?_ rfl)
    rw [show s.outline.view id = s.view id from rfl, view]
    rfl
  | @posts p current rest view found free =>
    obtain ⟨endpoint, _, _⟩ := tidy.get?_eq_some_iff.mp found
    apply lanes.put
    rw [show s.outline.view id = s.view id from rfl, view, View.position_has rfl, endpoint]
    rfl
  | accepts view verdict => exact has view (Phase.onLane_of_verdict? verdict).symm
  | holds view verdict =>
    refine lanes.leave ?_ rfl
    rw [show s.outline.view id = s.view id from rfl, view]
    exact View.position_has (Phase.onLane_of_verdict? verdict)
  | refuses view verdict => exact has view (Phase.onLane_of_verdict? verdict).symm
  | counts view verdict => exact has view (Phase.onLane_of_verdict? verdict).symm
  | @ends p ending rest later _ view next =>
    apply next.lanes
    split
    case isTrue onLane =>
      refine lanes.leave ?_ rfl
      rw [show s.outline.view id = s.view id from rfl, view]
      exact View.position_has onLane
    case isFalse offLane =>
      apply lanes.put
      rw [show s.outline.view id = s.view id from rfl, view, View.has]
      exact (if_neg offLane).symm

theorem Fills.same {idOf : Nat → String} (fills : Fills idOf o ps o') :
    o'.lanes = o.lanes ∧ o'.view = o.view := by
  induction fills with
  | nil => exact ⟨rfl, rfl⟩
  | cons p id others ih => exact ih

theorem Fills.tidy {idOf : Nat → String} (fills : Fills idOf o ps o') (tidy : o.queue.Tidy) :
    o'.queue.Tidy := by
  induction fills with
  | nil => exact tidy
  | cons p id others ih => exact ih (tidy.save p)

/-- Filling the queue does not concern the lanes. -/
theorem Fills.inOrder {idOf : Nat → String} (fills : Fills idOf o ps o') (order : o.InOrder)
    {known : List Pending} (away : (o.view id).position = .away) :
    (o'.put id (.idle known)).InOrder := by
  obtain ⟨lanes, view⟩ := fills.same
  have same : o'.OnePerLane := order.lanes.congr lanes fun j => by rw [view]
  exact ⟨fills.tidy order.tidy, same.put (by rw [view, away]; rfl)⟩

theorem Deed.inOrder (deed : Deed s id o) (order : s.outline.InOrder) : o.InOrder := by
  cases deed with
  | idle waits => exact order
  | fills made one free away => exact made.inOrder order away
  | @removes p ending rest view =>
    have same : (s.outline.withQueue (s.queue.remove p).1).OnePerLane :=
      order.lanes.congr rfl fun _ => rfl
    refine ⟨order.tidy.remove p, same.put ?_⟩
    show _ = (s.view id).position
    rw [view]
    rfl
  | @records p time rest view =>
    have same : (s.outline.withQueue (s.queue.recordFailure p time).1).OnePerLane :=
      order.lanes.congr rfl fun _ => rfl
    refine ⟨order.tidy.save (p.failed time), same.put ?_⟩
    show _ = (s.view id).position
    rw [view]
    rfl

/-- Only files and envelopes bring new deliveries. -/
theorem Moved.keeps {m : Move} (moved : Moved s m added o)
    (work : ∀ id, m ≠ .work id) (envelope : ∀ e type, m ≠ .envelope e type) :
    o.made = s.made ∧ o.queue = s.queue := by
  cases moved with
  | quiet => exact ⟨rfl, rfl⟩
  | acts act => exact ⟨act.made, act.queue⟩
  | works => exact absurd rfl (work _)
  | answers => exact ⟨rfl, rfl⟩
  | arrives => exact absurd rfl (envelope _ _)

theorem Moved.inOrder {m : Move} (moved : Moved s m added o) (order : s.outline.InOrder) :
    o.InOrder := by
  cases moved with
  | quiet => exact order
  | acts act =>
    have tidy : o.queue.Tidy := act.queue ▸ order.tidy
    exact ⟨tidy, act.lanes order.tidy order.lanes⟩
  | works deed => exact deed.inOrder order
  | @answers id p rest reply view =>
    refine ⟨order.tidy, order.lanes.put ?_⟩
    show _ = (s.view id).position
    rw [view]
    rfl
  | @arrives p o' id e type fills fresh =>
    apply fills.inOrder order
    rw [← fills.same.2, fresh]
    rfl

end

namespace Service

theorem start_inOrder (config : Config) (idOf : Nat → String) (made : Nat) (clock : Millis)
    (pending snapshots : Storage.Store) :
    (start config idOf made clock pending snapshots).outline.InOrder where
  tidy := Queue.ofStore_tidy pending
  lanes := by
    have lane (e : Endpoint) :
        (start config idOf made clock pending snapshots).outline.lanes.get e = ⟨1, [], []⟩ :=
      PerEndpoint.get_const _ e
    have away (id : Nat) : (start config idOf made clock pending snapshots).outline.view id =
        .idle [] := by
      simp [Service.outline, view, stage?, start]
    constructor <;> intro e <;> simp [lane, away, View.idle]

theorem step_inOrder {s : Service} (order : s.outline.InOrder) (m : Move) :
    (s.step m).outline.InOrder := by
  obtain ⟨added, o, moved, became⟩ := step_moved s m
  rw [became.outline]
  exact moved.inOrder order

/-- In every state that can be reached, the queue is tidy and each lane has one holder at most. -/
theorem Reachable.inOrder {s : Service} (reachable : s.Reachable) : s.outline.InOrder := by
  induction reachable with
  | start config idOf made clock pending snapshots => exact start_inOrder _ _ _ _ _ _
  | load _ ih =>
    rw [(loadQueue_becomes _).outline]
    exact ⟨ih.tidy.load, ih.lanes.congr rfl fun _ => rfl⟩
  | move _ m ih => exact step_inOrder ih m

end Service

end Outbox
