import Mathlib.Data.List.Induction
import Mathlib.Data.List.Perm.Subperm
import Outbox.Delivery.Lanes
import Outbox.Proofs.PermitLine

/-! # Discipline on the lanes

Tasks come for lanes, end, and are cancelled, in any order: while they wait, first in the line or in
its middle, or while they have their lane. The tasks on one endpoint are those that came for it and
were not cancelled, in the order in which they came, less the first ones that ended. The first that
is left has the lane and the others wait, so that no lane is lost and nobody overtakes another.
-/

namespace Outbox

/-- What happens at the lanes. A name stands for one task, which comes for one lane. -/
inductive LaneEvent (α : Type) where
  | acquire (task : α) (endpoint : Endpoint)
  /-- The task ends, at once if it has its lane and otherwise as soon as it does. -/
  | release (task : α)
  | cancel (task : α)
  deriving Repr, DecidableEq

namespace LaneEvent

variable {α : Type}

def task : LaneEvent α → α
  | acquire a _ | release a | cancel a => a

/-- The task that comes, and the endpoint that it comes for. -/
def request? : LaneEvent α → Option (α × Endpoint)
  | acquire a e => some (a, e)
  | _ => none

end LaneEvent

namespace Lanes

open scoped List

variable {α : Type} {events : List (LaneEvent α)} {e f : Endpoint} {a b : α} {l : Lanes α}

/-! ## Histories -/

/-- Who came for a lane, and for which one. -/
def requests (events : List (LaneEvent α)) : List (α × Endpoint) :=
  events.filterMap LaneEvent.request?

/-- Who came for the lane of an endpoint, in order. -/
def requested (events : List (LaneEvent α)) (e : Endpoint) : List α :=
  ((requests events).filter fun r => r.2 = e).map (·.1)

theorem requests_concat (events : List (LaneEvent α)) (event : LaneEvent α) :
    requests (events ++ [event]) = requests events ++ event.request?.toList := by
  cases event <;> simp [requests, LaneEvent.request?]

theorem mem_requested : a ∈ requested events e ↔ (a, e) ∈ requests events := by
  simp [requested]

theorem requested_nodup (distinct : ((requests events).map (·.1)).Nodup) (e : Endpoint) :
    (requested events e).Nodup :=
  distinct.sublist (List.filter_sublist.map _)

theorem eq_of_requested (distinct : ((requests events).map (·.1)).Nodup)
    (first : a ∈ requested events e) (second : a ∈ requested events f) : e = f := by
  have same := List.inj_on_of_nodup_map distinct (mem_requested.mp first) (mem_requested.mp second)
  exact congrArg Prod.snd (same rfl)

/-- Only a request changes who came. -/
theorem requested_of_no_request {event : LaneEvent α} (none_ : event.request? = none)
    (e : Endpoint) : requested (events ++ [event]) e = requested events e := by
  rw [requested, requests_concat, none_, Option.toList_none, List.append_nil, ← requested]

theorem requested_acquire (events : List (LaneEvent α)) (a : α) (e f : Endpoint) :
    requested (events ++ [.acquire a e]) f =
      requested events f ++ if e = f then [a] else [] := by
  rw [requested, requests_concat, List.filter_append, List.map_append, ← requested]
  congr 1
  by_cases same : e = f <;> simp [LaneEvent.request?, same]

variable [DecidableEq α]

def comes (a : α) (event : LaneEvent α) : Bool := event.request?.any fun r => r.1 = a

def isReleased (events : List (LaneEvent α)) (a : α) : Bool :=
  happenedSince (comes a) events (.release a)

def isCancelled (events : List (LaneEvent α)) (a : α) : Bool :=
  happenedSince (comes a) events (.cancel a)

/-- Who has the lane of an endpoint or waits for it: those that came and were not cancelled, less
the first ones that ended. -/
def standing (events : List (LaneEvent α)) (e : Endpoint) : List α :=
  ((requested events e).filter fun a => !isCancelled events a).dropWhile (isReleased events)

def step (l : Lanes α) : LaneEvent α → Lanes α × List α
  | .acquire a e => l.acquire a e
  | .release a => l.release a
  | .cancel a => l.cancel a

/-- The lanes after some events, and who got a lane so far, in order. -/
def run (events : List (LaneEvent α)) : Lanes α × List α :=
  events.foldl (fun r event => ((r.1.step event).1, r.2 ++ (r.1.step event).2)) (empty, [])

theorem run_concat (events : List (LaneEvent α)) (event : LaneEvent α) :
    run (events ++ [event]) =
      (((run events).1.step event).1, (run events).2 ++ ((run events).1.step event).2) := by
  rw [run, List.foldl_append]
  rfl

/-- The lane of an endpoint after some events. -/
def lane (events : List (LaneEvent α)) (e : Endpoint) : Permits α := (run events).1.lanes.get e

/-- Who got the lane of an endpoint so far, in order. -/
def grants (events : List (LaneEvent α)) (e : Endpoint) : List α :=
  (run events).2.filter fun a => a ∈ requested events e

theorem any_comes : events.any (comes a) = decide (a ∈ (requests events).map (·.1)) := by
  rw [Bool.eq_iff_iff, decide_eq_true_iff, List.any_eq_true, List.mem_map]
  simp only [comes, Option.any_eq_true, decide_eq_true_eq, requests, List.mem_filterMap]
  constructor
  · rintro ⟨event, member, r, came, rfl⟩
    exact ⟨r, ⟨event, member, came⟩, rfl⟩
  · rintro ⟨r, ⟨event, member, came⟩, rfl⟩
    exact ⟨event, member, r, came, rfl⟩

theorem isReleased_concat (events : List (LaneEvent α)) (event : LaneEvent α) (a : α) :
    isReleased (events ++ [event]) a =
      (isReleased events a || (events.any (comes a) && decide (.release a = event))) :=
  happenedSince_concat _ _ _ _

theorem isCancelled_concat (events : List (LaneEvent α)) (event : LaneEvent α) (a : α) :
    isCancelled (events ++ [event]) a =
      (isCancelled events a || (events.any (comes a) && decide (.cancel a = event))) :=
  happenedSince_concat _ _ _ _

@[simp]
theorem isReleased_acquire (events : List (LaneEvent α)) (b : α) (f : Endpoint) :
    isReleased (events ++ [.acquire b f]) = isReleased events := by
  funext a
  simp [isReleased_concat]

@[simp]
theorem isCancelled_acquire (events : List (LaneEvent α)) (b : α) (f : Endpoint) :
    isCancelled (events ++ [.acquire b f]) = isCancelled events := by
  funext a
  simp [isCancelled_concat]

@[simp]
theorem isReleased_cancel (events : List (LaneEvent α)) (b : α) :
    isReleased (events ++ [.cancel b]) = isReleased events := by
  funext a
  simp [isReleased_concat]

@[simp]
theorem isCancelled_release (events : List (LaneEvent α)) (b : α) :
    isCancelled (events ++ [.release b]) = isCancelled events := by
  funext a
  simp [isCancelled_concat]

theorem isCancelled_of_fresh (fresh : a ∉ (requests events).map (·.1)) :
    isCancelled events a = false :=
  happenedSince_of_never (by rw [any_comes, decide_eq_false fresh]) _

theorem isReleased_of_fresh (fresh : a ∉ (requests events).map (·.1)) :
    isReleased events a = false :=
  happenedSince_of_never (by rw [any_comes, decide_eq_false fresh]) _

theorem standing_acquire (fresh : a ∉ (requests events).map (·.1)) (e f : Endpoint) :
    standing (events ++ [.acquire a e]) f =
      standing events f ++ if e = f then [a] else [] := by
  rw [standing, requested_acquire, isReleased_acquire, isCancelled_acquire, List.filter_append]
  split
  case isTrue =>
    have kept : [a].filter (fun b => !isCancelled events b) = [a] := by
      simp [isCancelled_of_fresh fresh]
    rw [kept, List.dropWhile_append, ← standing]
    split
    case isTrue empty =>
      rw [List.isEmpty_iff.mp empty]
      simp [isReleased_of_fresh fresh]
    case isFalse => rfl
  case isFalse => simp [standing]

theorem standing_sublist (events : List (LaneEvent α)) (e : Endpoint) :
    (standing events e).Sublist (requested events e) :=
  (List.dropWhile_sublist _).trans List.filter_sublist

theorem standing_nodup (distinct : ((requests events).map (·.1)).Nodup) (e : Endpoint) :
    (standing events e).Nodup :=
  (requested_nodup distinct e).sublist (standing_sublist events e)

theorem requested_of_standing (stands : a ∈ standing events e) : a ∈ requested events e :=
  (standing_sublist events e).subset stands

theorem mem_requests_of_standing (stands : a ∈ standing events e) :
    a ∈ (requests events).map (·.1) :=
  List.mem_map_of_mem (mem_requested.mp (requested_of_standing stands))

theorem comes_of_standing (stands : a ∈ standing events e) : events.any (comes a) = true := by
  rw [any_comes, decide_eq_true_iff]
  exact mem_requests_of_standing stands

/-- Nobody stands in two lines. -/
theorem eq_of_standing (distinct : ((requests events).map (·.1)).Nodup)
    (first : a ∈ standing events e) (second : a ∈ standing events f) : e = f :=
  eq_of_requested distinct (requested_of_standing first) (requested_of_standing second)

/-! ## Leaving the line -/

/-- The lanes when these tasks have left the one of an endpoint, and what is left of its line. -/
def strike (l : Lanes α) (e : Endpoint) (gone line : List α) : Lanes α where
  lanes := l.lanes.set e (.ofLine 1 line)
  alive := l.alive.filter fun t => t.1 ∉ gone
  leaving := l.leaving.filter fun a => a ∉ gone

theorem strike_strike (l : Lanes α) (e : Endpoint) (gone others line rest : List α) :
    (l.strike e gone line).strike e others rest = l.strike e (gone ++ others) rest := by
  have lanes : (l.lanes.set e (.ofLine 1 line)).set e (.ofLine 1 rest) =
      l.lanes.set e (.ofLine 1 rest) :=
    PerEndpoint.ext_get fun f => by grind
  simp [strike, lanes, List.filter_filter, Bool.and_comm]

theorem strike_nil {line : List α} (at_ : l.lanes.get e = .ofLine 1 line) :
    l.strike e [] line = l := by
  have lanes : l.lanes.set e (.ofLine 1 line) = l.lanes :=
    PerEndpoint.ext_get fun f => by grind
  simp [strike, lanes]

theorem depart_eq {line : List α} (at_ : l.lanes.get e = .ofLine 1 line) (nodup : line.Nodup)
    (a : α) :
    l.depart a e =
      (l.strike e [a] (line.erase a), if a ∈ line.take 1 then (line.drop 1).take 1 else []) := by
  unfold depart
  rw [at_, Permits.leave_ofLine 1 nodup]
  simp [strike]

/-- When the first in the line gets the lane, those at the front that wanted to end do so, and the
lane goes to the first of the others. -/
theorem pass_eq {line : List α} (fuel : Nat) (ends : α → Bool)
    (at_ : l.lanes.get e = .ofLine 1 line) (nodup : line.Nodup) (enough : line.length < fuel)
    (leaving : ∀ b ∈ line, b ∈ l.leaving ↔ ends b = true) :
    pass e fuel l (line.take 1) =
      (l.strike e (line.takeWhile ends) (line.dropWhile ends),
        line.takeWhile ends ++ (line.dropWhile ends).take 1) := by
  induction line generalizing fuel l with
  | nil =>
    obtain ⟨fuel, rfl⟩ := Nat.exists_eq_succ_of_ne_zero (Nat.ne_of_gt enough)
    simp [pass, strike_nil at_]
  | cons b line ih =>
    obtain ⟨fuel, rfl⟩ := Nat.exists_eq_succ_of_ne_zero (Nat.ne_of_gt (Nat.zero_lt_of_lt enough))
    have fresh : b ∉ line := (List.nodup_cons.mp nodup).1
    have short : line.length < fuel := by
      simp only [List.length_cons] at enough
      omega
    rw [List.take_succ_cons, List.take_zero, pass]
    by_cases first : ends b = true
    · have left_ := depart_eq at_ nodup b
      rw [List.erase_cons_head] at left_
      rw [if_pos ((leaving b List.mem_cons_self).mpr first), left_]
      have next := ih (l := l.strike e [b] line) fuel (PerEndpoint.get_set_self _ _ _)
        (List.nodup_cons.mp nodup).2 short (by
          intro c member
          have other : c ≠ b := fun same => fresh (same ▸ member)
          rw [← leaving c (List.mem_cons_of_mem _ member)]
          simp [strike, other])
      simp [next, first, strike_strike]
    · rw [if_neg (by rw [leaving b List.mem_cons_self]; exact first)]
      obtain ⟨fuel, rfl⟩ := Nat.exists_eq_succ_of_ne_zero (Nat.ne_of_gt (Nat.zero_lt_of_lt short))
      simp [pass, first, strike_nil at_]

omit [DecidableEq α] in
/-- A line is shorter than the list of all tasks. -/
theorem length_lt_line {line : List α} (nodup : line.Nodup) (alive : ∀ a ∈ line, (a, e) ∈ l.alive) :
    line.length < l.line := by
  have distinct : (line.map fun a => (a, e)).Nodup :=
    nodup.map fun _ _ same => congrArg Prod.fst same
  have within : (line.map fun a => (a, e)) ⊆ l.alive := by
    intro t member
    obtain ⟨a, stands, rfl⟩ := List.mem_map.mp member
    exact alive a stands
  have short := (List.subperm_of_subset distinct within).length_le
  rw [List.length_map] at short
  unfold Lanes.line
  omega

/-- A task leaves the line, and whoever gets the lane by that ends if it wanted to. -/
def withdraw (l : Lanes α) (a : α) (e : Endpoint) : Lanes α × List α :=
  pass e (l.depart a e).1.line (l.depart a e).1 (l.depart a e).2

/-- Who gets the lane when a task leaves. -/
def successors (p : α → Bool) (line : List α) (a : α) : List α :=
  if a ∈ line.take 1 then
    (line.erase a).takeWhile p ++ ((line.erase a).dropWhile p).take 1
  else []

/-- If the first in the line leaves, those behind it that wanted to end follow. -/
theorem withdraw_eq {line : List α} {ends : α → Bool} (at_ : l.lanes.get e = .ofLine 1 line)
    (nodup : line.Nodup) (alive : ∀ b ∈ line, (b, e) ∈ l.alive)
    (leaving : ∀ b ∈ line, b ∈ l.leaving ↔ ends b = true)
    (stays : ∀ b ∈ line.take 1, ends b = false) (a : α) :
    l.withdraw a e =
      (l.strike e (a :: (line.erase a).takeWhile ends) ((line.erase a).dropWhile ends),
        successors ends line a) := by
  rw [withdraw, depart_eq at_ nodup]
  cases line with
  | nil => simp [pass, Lanes.line, successors]
  | cons b rest =>
    have fresh : b ∉ rest := (List.nodup_cons.mp nodup).1
    by_cases first : a = b
    · subst first
      have struck := pass_eq (l := l.strike e [a] rest) (l.strike e [a] rest).line ends
        (PerEndpoint.get_set_self _ _ _) (List.nodup_cons.mp nodup).2
        (length_lt_line (e := e) (List.nodup_cons.mp nodup).2 (by
          intro c member
          have other : c ≠ a := fun same => fresh (same ▸ member)
          simp [strike, alive c (List.mem_cons_of_mem _ member), other]))
        (by
          intro c member
          have other : c ≠ a := fun same => fresh (same ▸ member)
          rw [← leaving c (List.mem_cons_of_mem _ member)]
          simp [strike, other])
      simp [struck, strike_strike, successors]
    · have kept : ends b = false := stays b (by simp)
      have rest_ : (b :: rest).erase a = b :: rest.erase a :=
        List.erase_cons_tail (by simp [Ne.symm first])
      simp [rest_, first, kept, pass, Lanes.line, successors]

/-- A new task gets the lane at once exactly if nobody is there. -/
theorem acquire_eq {line : List α} (at_ : l.lanes.get e = .ofLine 1 line) (fresh : a ∉ l.leaving) :
    l.acquire a e =
      ({ l with
          lanes := l.lanes.set e (.ofLine 1 (line ++ [a]))
          alive := l.alive ++ [(a, e)] },
        if line.length < 1 then [a] else []) := by
  unfold acquire
  rw [at_, Permits.request_ofLine]
  dsimp only [Lanes.line]
  split
  case isTrue => simp [pass, fresh]
  case isFalse => rfl

/-! ## Keeping track -/

/-- The lanes are as the history says, and the line of each endpoint goes on where the tasks that
got the lane so far leave off. -/
structure Tracks (events : List (LaneEvent α)) (l : Lanes α) (log : List α) : Prop where
  lanes : ∀ e, l.lanes.get e = .ofLine 1 (standing events e)
  alive : ∀ e a, (a, e) ∈ l.alive ↔ a ∈ standing events e
  leaving : ∀ e, ∀ a ∈ standing events e, a ∈ l.leaving ↔ isReleased events a = true
  known : ∀ a ∈ log ++ l.leaving, a ∈ (requests events).map (·.1)
  ordered : ∀ e,
    (log.filter (fun a => a ∈ requested events e) ++ (standing events e).drop 1).Sublist
      (requested events e)
  complete : ∀ e, ∀ a ∈ requested events e, isCancelled events a = true ∨
    a ∈ log ∨ a ∈ (standing events e).drop 1

omit [DecidableEq α] in
/-- Who comes last gets the lane or waits behind the others. -/
theorem goes_on (line : List α) (a : α) :
    (if line.length < 1 then [a] else []) ++ (line ++ [a]).drop 1 = line.drop 1 ++ [a] := by
  cases line <;> simp

/-- A task that comes takes the last place in the line. -/
theorem Tracks.acquire {log : List α} (tracks : Tracks events l log)
    (distinct : ((requests (events ++ [.acquire a e])).map (·.1)).Nodup) :
    Tracks (events ++ [.acquire a e]) (l.acquire a e).1 (log ++ (l.acquire a e).2) := by
  have split_ : ((requests events).map (·.1)).Nodup ∧ a ∉ (requests events).map (·.1) := by
    rw [requests_concat, List.map_append, List.nodup_append] at distinct
    exact ⟨distinct.1, fun member => distinct.2.2 a member a (by simp [LaneEvent.request?]) rfl⟩
  obtain ⟨distinct, fresh⟩ := split_
  have unlogged : a ∉ log := fun member => fresh (tracks.known a (List.mem_append_left _ member))
  have staying : a ∉ l.leaving :=
    fun member => fresh (tracks.known a (List.mem_append_right _ member))
  have absent (f : Endpoint) : a ∉ requested events f :=
    fun member => fresh (List.mem_map_of_mem (mem_requested.mp member))
  rw [acquire_eq (tracks.lanes e) staying]
  refine ⟨?_, ?_, ?_, ?_, ?_, ?_⟩
  · intro f
    rw [standing_acquire fresh, PerEndpoint.get_set]
    by_cases same : f = e
    · simp [same]
    · rw [if_neg same, if_neg (Ne.symm same), List.append_nil, tracks.lanes]
  · intro f b
    rw [standing_acquire fresh, List.mem_append, List.mem_append, tracks.alive]
    by_cases same : e = f
    · simp [same]
    · simp [same, Ne.symm same]
  · intro f b member
    rw [standing_acquire fresh, List.mem_append] at member
    rw [isReleased_acquire]
    rcases member with old | new
    · exact tracks.leaving f b old
    · have new : b = a := by
        split at new
        · exact List.mem_singleton.mp new
        · cases new
      rw [new, isReleased_of_fresh fresh]
      simp [staying]
  · intro b member
    rw [requests_concat, List.map_append, List.mem_append]
    dsimp only at member
    split at member
    · have cases_ : b ∈ log ++ l.leaving ∨ b = a := by
        simp only [List.mem_append, List.mem_singleton] at member ⊢
        tauto
      rcases cases_ with old | rfl
      · exact .inl (tracks.known b old)
      · exact .inr (by simp [LaneEvent.request?])
    · exact .inl (tracks.known b (by simpa using member))
  · intro f
    rw [standing_acquire fresh, requested_acquire, List.filter_append]
    by_cases same : e = f
    · subst same
      have old : log.filter (fun b => b ∈ requested events e ++ [a]) =
          log.filter fun b => b ∈ requested events e := by
        apply List.filter_congr
        intro b member
        have other : b ≠ a := fun same => unlogged (same ▸ member)
        simp [other]
      have new : (if (standing events e).length < 1 then [a] else []).filter
          (fun b => b ∈ requested events e ++ [a]) =
            if (standing events e).length < 1 then [a] else [] := by
        split <;> simp
      simp only [if_true]
      rw [old, new, List.append_assoc, goes_on, ← List.append_assoc]
      exact (tracks.ordered e).append (List.Sublist.refl _)
    · have new : (if (standing events e).length < 1 then [a] else []).filter
          (fun b => b ∈ requested events f) = [] := by
        split <;> simp [absent f]
      simp only [if_neg same, List.append_nil]
      rw [new, List.append_nil]
      exact tracks.ordered f
  · intro f b member
    rw [requested_acquire, List.mem_append] at member
    rw [standing_acquire fresh, isCancelled_acquire]
    rcases member with old | new
    · rcases tracks.complete f b old with cancelled | logged | waits
      · exact .inl cancelled
      · exact .inr (.inl (List.mem_append_left _ logged))
      · exact .inr (.inr ((List.sublist_append_left _ _).drop 1 |>.subset waits))
    · split at new
      case isFalse => cases new
      case isTrue same =>
        subst same
        have there : b ∈ (standing events e).drop 1 ++ [a] := List.mem_append_right _ new
        rw [← goes_on, List.mem_append] at there
        rw [if_pos rfl]
        exact .inr (there.imp_left (List.mem_append_right _))

/-- Only tasks that are not asked to end are first in a line. -/
theorem not_isReleased_first (events : List (LaneEvent α)) (e : Endpoint) :
    ∀ a ∈ (standing events e).take 1, isReleased events a = false := by
  intro a member
  have head := List.head?_dropWhile_not (isReleased events)
    ((requested events e).filter fun b => !isCancelled events b)
  rw [← standing] at head
  cases shape : standing events e with
  | nil => simp [shape] at member
  | cons b rest =>
    rw [shape] at head member
    rw [List.take_succ_cons, List.take_zero, List.mem_singleton] at member
    simpa [member] using head

omit [DecidableEq α] in
theorem dropWhile_of_first {p : α → Bool} {line : List α} (stays : ∀ a ∈ line.take 1, p a = false) :
    line.dropWhile p = line := by
  cases line with
  | nil => rfl
  | cons a rest => simp [stays a (by simp)]

omit [DecidableEq α] in
theorem dropWhile_congr {p q : α → Bool} {line : List α} (same : ∀ a ∈ line, p a = q a) :
    line.dropWhile p = line.dropWhile q := by
  induction line with
  | nil => rfl
  | cons a line ih =>
    rw [List.dropWhile_cons, List.dropWhile_cons, same a List.mem_cons_self,
      ih fun b member => same b (List.mem_cons_of_mem _ member)]

omit [DecidableEq α] in
theorem dropWhile_dropWhile {p q : α → Bool} (imp : ∀ a, p a = true → q a = true) (line : List α) :
    (line.dropWhile p).dropWhile q = line.dropWhile q := by
  induction line with
  | nil => rfl
  | cons a line ih =>
    by_cases first : p a = true
    · rw [List.dropWhile_cons_of_pos first, ih, List.dropWhile_cons_of_pos (imp a first)]
    · rw [List.dropWhile_cons_of_neg first]

omit [DecidableEq α] in
theorem dropWhile_filter (p q : α → Bool) (line : List α) :
    (line.filter q).dropWhile p = ((line.dropWhile p).filter q).dropWhile p := by
  induction line with
  | nil => rfl
  | cons a line ih =>
    by_cases first : p a = true
    · rw [List.dropWhile_cons_of_pos first, ← ih, List.filter_cons]
      split
      · rw [List.dropWhile_cons_of_pos first]
      · rfl
    · rw [List.dropWhile_cons_of_neg first]

theorem standing_release (events : List (LaneEvent α)) (a : α) (e : Endpoint) :
    standing (events ++ [.release a]) e =
      (standing events e).dropWhile (isReleased (events ++ [.release a])) := by
  rw [standing, requested_of_no_request rfl, isCancelled_release, standing, dropWhile_dropWhile]
  intro b released
  rw [isReleased_concat, released, Bool.true_or]

theorem standing_cancel (distinct : ((requests events).map (·.1)).Nodup) (a : α) (e : Endpoint) :
    standing (events ++ [.cancel a]) e =
      ((standing events e).erase a).dropWhile (isReleased events) := by
  have nodup := standing_nodup distinct e
  rw [standing, requested_of_no_request rfl, isReleased_cancel, nodup.erase_eq_filter]
  have kept : (requested events e).filter (fun b => !isCancelled (events ++ [.cancel a]) b) =
      ((requested events e).filter fun b => !isCancelled events b).filter fun b => b != a := by
    rw [List.filter_filter]
    apply List.filter_congr
    intro b member
    have came : events.any (comes b) = true := by
      rw [any_comes, decide_eq_true_iff]
      exact List.mem_map_of_mem (mem_requested.mp member)
    rw [isCancelled_concat, came]
    by_cases same : b = a <;> simp [same]
  rw [kept, dropWhile_filter, ← standing]

/-- When a task leaves, the others keep their places, and none of them is passed over. -/
theorem closes_up {p : α → Bool} {line : List α} (stays : ∀ b ∈ line.take 1, p b = false) (a : α) :
    (successors p line a ++ ((line.erase a).dropWhile p).drop 1).Sublist (line.drop 1) ∧
      ∀ b ∈ line.drop 1, b ∈ successors p line a ++ ((line.erase a).dropWhile p).drop 1 ∨
        (b = a ∧ a ∉ line.take 1) := by
  cases line with
  | nil => simp [successors]
  | cons c rest =>
    by_cases first : a = c
    · subst first
      have whole :
          successors p (a :: rest) a ++ (((a :: rest).erase a).dropWhile p).drop 1 = rest := by
        simp only [successors, List.take_succ_cons, List.take_zero, List.mem_singleton, if_true,
          List.erase_cons_head, List.append_assoc, List.take_append_drop,
          List.takeWhile_append_dropWhile]
      rw [whole]
      exact ⟨List.Sublist.refl _, fun b member => .inl member⟩
    · have shape : (c :: rest).erase a = c :: rest.erase a :=
        List.erase_cons_tail (by simp [Ne.symm first])
      have kept : p c = false := stays c (by simp)
      have nobody : successors p (c :: rest) a = [] := by simp [successors, first]
      rw [shape, nobody, List.nil_append, List.dropWhile_cons_of_neg (by simp [kept])]
      refine ⟨List.erase_sublist, fun b member => ?_⟩
      by_cases self : b = a
      · exact .inr ⟨self, by simp [first]⟩
      · exact .inl ((List.mem_erase_of_ne self).mpr member)

/-- Those stand in a line who stood there and are none of those who leave. -/
theorem mem_standing_iff {event : LaneEvent α} (distinct : ((requests events).map (·.1)).Nodup)
    (member : a ∈ standing events e)
    (here : standing (events ++ [event]) e =
      ((standing events e).erase a).dropWhile (isReleased events))
    (there : ∀ f, f ≠ e → standing (events ++ [event]) f = standing events f)
    (f : Endpoint) (b : α) :
    b ∈ standing (events ++ [event]) f ↔ b ∈ standing events f ∧
      b ∉ a :: ((standing events e).erase a).takeWhile (isReleased events) := by
  have nodup := standing_nodup distinct e
  have rest : ((standing events e).erase a).takeWhile (isReleased events) ++
      ((standing events e).erase a).dropWhile (isReleased events) = (standing events e).erase a :=
    List.takeWhile_append_dropWhile
  by_cases same : f = e
  · subst same
    have apart := List.disjoint_of_nodup_append (rest.symm ▸ nodup.erase a)
    have parts : b ∈ ((standing events f).erase a).takeWhile (isReleased events) ∨
        b ∈ ((standing events f).erase a).dropWhile (isReleased events) ↔
          b ≠ a ∧ b ∈ standing events f := by
      rw [← List.mem_append, rest, nodup.mem_erase_iff]
    rw [here, List.mem_cons]
    constructor
    · intro kept
      have inside := parts.mp (.inr kept)
      exact ⟨inside.2, not_or.mpr ⟨inside.1, fun ends => apart ends kept⟩⟩
    · intro ⟨stands, stays⟩
      exact (parts.mpr ⟨fun self => stays (.inl self), stands⟩).resolve_left
        fun ends => stays (.inr ends)
  · rw [there f same]
    refine (and_iff_left_of_imp fun stands ends => same ?_).symm
    have ended : b ∈ standing events e := by
      rcases List.mem_cons.mp ends with rfl | follows
      · exact member
      · exact List.mem_of_mem_erase ((List.takeWhile_sublist _).subset follows)
    exact eq_of_standing distinct stands ended

/-- A task leaves its line, in whichever way the history comes to say so. -/
theorem Tracks.withdraw {log : List α} {event : LaneEvent α} (tracks : Tracks events l log)
    (distinct : ((requests events).map (·.1)).Nodup) (none_ : event.request? = none)
    (member : a ∈ standing events e)
    (here : standing (events ++ [event]) e =
      ((standing events e).erase a).dropWhile (isReleased events))
    (there : ∀ f, f ≠ e → standing (events ++ [event]) f = standing events f)
    (others : ∀ b, b ≠ a → isReleased (events ++ [event]) b = isReleased events b)
    (lost : a ∉ (standing events e).take 1 → isCancelled (events ++ [event]) a = true) :
    Tracks (events ++ [event]) (l.withdraw a e).1 (log ++ (l.withdraw a e).2) := by
  have nodup := standing_nodup distinct e
  rw [withdraw_eq (tracks.lanes e) nodup (fun b => (tracks.alive e b).mpr) (tracks.leaving e)
    (not_isReleased_first events e)]
  have requests_ : requests (events ++ [event]) = requests events := by
    rw [requests_concat, none_, Option.toList_none, List.append_nil]
  have requested_ (f : Endpoint) : requested (events ++ [event]) f = requested events f :=
    requested_of_no_request none_ f
  have left_ (f : Endpoint) (b : α) := mem_standing_iff distinct member here there f b
  obtain ⟨ordered, complete⟩ := closes_up (not_isReleased_first events e) a
  have next : ∀ b ∈ successors (isReleased events) (standing events e) a,
      b ∈ requested events e := by
    intro b new
    have waits : b ∈ (standing events e).drop 1 :=
      ordered.subset (List.mem_append_left _ new)
    exact requested_of_standing (List.mem_of_mem_drop waits)
  refine ⟨?_, ?_, ?_, ?_, ?_, ?_⟩
  · intro f
    rw [strike, PerEndpoint.get_set]
    by_cases same : f = e
    · rw [if_pos same, same, here]
    · rw [if_neg same, there f same, tracks.lanes]
  · intro f b
    rw [left_, ← tracks.alive f b, strike, List.mem_filter, decide_eq_true_iff]
  · intro f b stands
    obtain ⟨stood, stays⟩ := (left_ f b).mp stands
    have other : b ≠ a := fun same => stays (same ▸ List.mem_cons_self)
    rw [others b other, ← tracks.leaving f b stood, strike, List.mem_filter, decide_eq_true_iff]
    exact and_iff_left stays
  · intro b found
    rw [requests_]
    rw [List.append_assoc, List.mem_append, List.mem_append] at found
    rcases found with logged | new | leaving
    · exact tracks.known b (List.mem_append_left _ logged)
    · exact List.mem_map_of_mem (mem_requested.mp (next b new))
    · exact tracks.known b (List.mem_append_right _ (List.mem_of_mem_filter leaving))
  · intro f
    rw [requested_, List.filter_append]
    by_cases same : f = e
    · subst same
      have all : (successors (isReleased events) (standing events f) a).filter
          (fun b => b ∈ requested events f) =
            successors (isReleased events) (standing events f) a :=
        List.filter_eq_self.mpr fun b new => decide_eq_true (next b new)
      rw [all, List.append_assoc, here]
      exact ((List.Sublist.refl _).append ordered).trans (tracks.ordered f)
    · have nobody : (successors (isReleased events) (standing events e) a).filter
          (fun b => b ∈ requested events f) = [] := by
        rw [List.filter_eq_nil_iff]
        intro b new elsewhere
        exact same (eq_of_requested distinct (of_decide_eq_true elsewhere) (next b new))
      rw [nobody, List.append_nil, there f same]
      exact tracks.ordered f
  · intro f b came
    rw [requested_] at came
    rcases tracks.complete f b came with cancelled | logged | waits
    · exact .inl (by rw [isCancelled_concat, cancelled, Bool.true_or])
    · exact .inr (.inl (List.mem_append_left _ logged))
    · by_cases same : f = e
      · subst same
        rcases complete b waits with kept | ⟨rfl, behind⟩
        · rw [here]
          exact .inr ((List.mem_append.mp kept).imp_left (List.mem_append_right _))
        · exact .inl (lost behind)
      · rw [there f same]
        exact .inr (.inr waits)

/-- Nobody leaves, gets a lane or comes; a task may want to end from now on. -/
theorem Tracks.still {log : List α} {event : LaneEvent α} {leaving : List α}
    (tracks : Tracks events l log) (none_ : event.request? = none)
    (same : ∀ f, standing (events ++ [event]) f = standing events f)
    (known : ∀ b ∈ leaving, b ∈ (requests events).map (·.1))
    (ends : ∀ f, ∀ b ∈ standing events f,
      b ∈ leaving ↔ isReleased (events ++ [event]) b = true) :
    Tracks (events ++ [event]) { l with leaving } log where
  lanes f := by rw [same, tracks.lanes]
  alive f b := by rw [same, tracks.alive]
  leaving f b stands := ends f b (same f ▸ stands)
  known b found := by
    rw [requests_concat, none_, Option.toList_none, List.append_nil]
    rcases List.mem_append.mp found with logged | wants
    · exact tracks.known b (List.mem_append_left _ logged)
    · exact known b wants
  ordered f := by
    rw [requested_of_no_request none_, same]
    exact tracks.ordered f
  complete f b came := by
    rw [requested_of_no_request none_] at came
    rw [same, isCancelled_concat]
    exact (tracks.complete f b came).imp_left fun cancelled => by rw [cancelled, Bool.true_or]

/-- The endpoint of a task is the one in whose line it stands. -/
theorem Tracks.lookup_eq_some {log : List α} (tracks : Tracks events l log)
    (found : l.alive.lookup a = some e) : a ∈ standing events e := by
  rw [← tracks.alive]
  obtain ⟨before, after, shape, -⟩ := List.lookup_eq_some_iff.mp found
  rw [shape]
  simp

theorem Tracks.lookup_eq_none {log : List α} (tracks : Tracks events l log)
    (missing : l.alive.lookup a = none) (e : Endpoint) : a ∉ standing events e := by
  intro stands
  rw [List.lookup_eq_none_iff] at missing
  have other := missing (a, e) ((tracks.alive e a).mpr stands)
  simp at other

theorem Tracks.release {log : List α} (tracks : Tracks events l log)
    (distinct : ((requests events).map (·.1)).Nodup) (a : α) :
    Tracks (events ++ [.release a]) (l.release a).1 (log ++ (l.release a).2) := by
  have others (b : α) (other : b ≠ a) :
      isReleased (events ++ [.release a]) b = isReleased events b := by
    simp [isReleased_concat, other]
  -- a line without the task at its front is as it was
  have stays (f : Endpoint) (behind : a ∉ (standing events f).take 1) :
      standing (events ++ [.release a]) f = standing events f := by
    rw [standing_release]
    apply dropWhile_of_first
    intro b first
    rw [others b fun same => behind (same ▸ first)]
    exact not_isReleased_first events f b first
  unfold Lanes.release
  split
  case h_1 missing =>
    have away := tracks.lookup_eq_none missing
    rw [List.append_nil]
    refine tracks.still rfl (fun f => stays f fun first => away f (List.mem_of_mem_take first))
      (fun b wants => tracks.known b (List.mem_append_right _ wants)) fun f b stands => ?_
    rw [others b fun same => away f (same ▸ stands), tracks.leaving f b stands]
  case h_2 e found =>
    have stands := tracks.lookup_eq_some found
    have came := comes_of_standing stands
    have nodup := standing_nodup distinct e
    have elsewhere (f : Endpoint) (other : f ≠ e) : a ∉ standing events f :=
      fun there => other (eq_of_standing distinct there stands)
    split
    case isTrue holds =>
      rw [tracks.lanes, Permits.holds_ofLine] at holds
      refine tracks.withdraw distinct rfl stands ?_ (fun f other => stays f fun first =>
        elsewhere f other (List.mem_of_mem_take first)) others fun behind => absurd holds behind
      rw [standing_release]
      cases shape : standing events e with
      | nil => simp [shape] at holds
      | cons b rest =>
        have self : a = b := by simpa [shape] using holds
        subst self
        have fresh : a ∉ rest := (List.nodup_cons.mp (shape ▸ nodup)).1
        have ended : isReleased (events ++ [.release a]) a = true := by
          simp [isReleased_concat, came]
        rw [List.dropWhile_cons_of_pos ended, List.erase_cons_head]
        exact dropWhile_congr fun b member => others b fun self => fresh (self ▸ member)
    case isFalse waits =>
      rw [tracks.lanes, Permits.holds_ofLine] at waits
      rw [List.append_nil]
      refine tracks.still rfl (fun f => stays f fun first => ?_) ?_ fun f b there => ?_
      · by_cases same : f = e
        · exact waits (same ▸ first)
        · exact elsewhere f same (List.mem_of_mem_take first)
      · intro b wants
        rcases List.mem_cons.mp wants with rfl | before
        · exact mem_requests_of_standing stands
        · exact tracks.known b (List.mem_append_right _ before)
      · by_cases self : b = a
        · simp [self, isReleased_concat, came]
        · rw [others b self, ← tracks.leaving f b there, List.mem_cons]
          exact or_iff_right self

theorem Tracks.cancel {log : List α} (tracks : Tracks events l log)
    (distinct : ((requests events).map (·.1)).Nodup) (a : α) :
    Tracks (events ++ [.cancel a]) (l.cancel a).1 (log ++ (l.cancel a).2) := by
  have stays (f : Endpoint) (away : a ∉ standing events f) :
      standing (events ++ [.cancel a]) f = standing events f := by
    rw [standing_cancel distinct, List.erase_of_not_mem away]
    exact dropWhile_of_first (not_isReleased_first events f)
  unfold Lanes.cancel
  split
  case h_1 missing =>
    have away := tracks.lookup_eq_none missing
    rw [List.append_nil]
    refine tracks.still rfl (fun f => stays f (away f))
      (fun b wants => tracks.known b (List.mem_append_right _ wants)) fun f b stands => ?_
    rw [isReleased_cancel, tracks.leaving f b stands]
  case h_2 e found =>
    have stands := tracks.lookup_eq_some found
    have came := comes_of_standing stands
    refine tracks.withdraw distinct rfl stands (standing_cancel distinct a e) ?_
      (fun b _ => by rw [isReleased_cancel]) fun _ => by simp [isCancelled_concat, came]
    intro f other
    exact stays f fun there => other (eq_of_standing distinct there stands)

/-- One event after the other, the lanes keep to the history. -/
theorem tracks_run (events : List (LaneEvent α)) (distinct : ((requests events).map (·.1)).Nodup) :
    Tracks events (run events).1 (run events).2 := by
  induction events using List.reverseRecOn with
  | nil =>
    refine ⟨fun e => ?_, ?_, ?_, ?_, ?_, ?_⟩
    · rw [run, List.foldl_nil, empty, PerEndpoint.get_const]
      exact (Permits.ofLine_nil 1).symm
    all_goals simp [run, empty, standing, requested, requests]
  | append_singleton events event ih =>
    have before : ((requests events).map (·.1)).Nodup := by
      rw [requests_concat, List.map_append] at distinct
      exact (List.nodup_append.mp distinct).1
    rw [run_concat]
    cases event with
    | acquire a e => exact (ih before).acquire distinct
    | release a => exact (ih before).release before a
    | cancel a => exact (ih before).cancel before a

/-! ## Discipline -/

/-- The order in which the tasks get the lane of an endpoint and leave it. -/
structure Discipline (events : List (LaneEvent α)) (e : Endpoint) : Prop where
  exclusive : (lane events e).holders.length ≤ 1
  /-- Nobody waits for a lane that is free, or that it has itself. -/
  busy : ∀ a ∈ (lane events e).waiting, ∃ b, (lane events e).holders = [b] ∧ b ≠ a
  /-- Exactly those have the lane or wait for it that came for it, less those that were cancelled or
  have ended, in the order in which they came. -/
  present : (lane events e).holders ++ (lane events e).waiting =
    ((requested events e).filter fun a => !isCancelled events a).dropWhile (isReleased events)
  /-- The lane goes from one to the next in the order in which they came. -/
  ordered : (grants events e ++ (lane events e).waiting).Sublist (requested events e)
  /-- Only those that were cancelled are passed over. -/
  complete : ∀ a ∈ requested events e,
    isCancelled events a = true ∨ a ∈ grants events e ++ (lane events e).waiting
  /-- What happens to a task that did not come for this lane does not matter here. -/
  apart : ∀ event : LaneEvent α, event.task ∉ requested (events ++ [event]) e →
    lane (events ++ [event]) e = lane events e

theorem pass_elsewhere (other : f ≠ e) (fuel : Nat) (l : Lanes α) (granted : List α) :
    (pass e fuel l granted).1.lanes.get f = l.lanes.get f := by
  induction fuel generalizing l granted with
  | zero => rfl
  | succ fuel ih =>
    cases granted with
    | nil => rfl
    | cons a granted =>
      rw [pass]
      split
      · rw [ih]
        exact PerEndpoint.get_set_of_ne _ _ other
      · exact ih l granted

theorem withdraw_elsewhere (other : f ≠ e) (l : Lanes α) (a : α) :
    (l.withdraw a e).1.lanes.get f = l.lanes.get f := by
  rw [withdraw, pass_elsewhere other]
  exact PerEndpoint.get_set_of_ne _ _ other

/-- What happens to a task that did not come for a lane does not matter there. -/
theorem Tracks.lane_of_foreign {log : List α} {event : LaneEvent α}
    (tracks : Tracks events (run events).1 log)
    (foreign : event.task ∉ requested (events ++ [event]) e) :
    lane (events ++ [event]) e = lane events e := by
  have elsewhere {a : α} {f : Endpoint} (none_ : event.request? = none) (self : event.task = a)
      (found : (run events).1.alive.lookup a = some f) : e ≠ f := by
    rintro rfl
    rw [requested_of_no_request none_, self] at foreign
    exact foreign (requested_of_standing (tracks.lookup_eq_some found))
  unfold lane
  rw [run_concat]
  cases event with
  | acquire a f =>
    have other : e ≠ f := by
      rintro rfl
      apply foreign
      rw [requested_acquire, if_pos rfl]
      exact List.mem_append_right _ List.mem_cons_self
    refine (pass_elsewhere other _ _ _).trans ?_
    exact PerEndpoint.get_set_of_ne _ _ other
  | release a =>
    dsimp only [step, Lanes.release]
    split
    · rfl
    case h_2 f found =>
      split
      · exact withdraw_elsewhere (elsewhere rfl rfl found) _ a
      · rfl
  | cancel a =>
    dsimp only [step, Lanes.cancel]
    split
    · rfl
    case h_2 f found => exact withdraw_elsewhere (elsewhere rfl rfl found) _ a

theorem lane_discipline (events : List (LaneEvent α))
    (distinct : ((requests events).map (·.1)).Nodup) (e : Endpoint) : Discipline events e := by
  have tracks := tracks_run events distinct
  have shape : lane events e = .ofLine 1 (standing events e) := tracks.lanes e
  have nodup := standing_nodup distinct e
  refine ⟨?_, ?_, ?_, ?_, ?_, ?_⟩
  · rw [shape]
    exact Permits.holders_length_le 1 _
  · rw [shape, Permits.ofLine_waiting, Permits.ofLine_holders]
    intro a waits
    cases line : standing events e with
    | nil => simp [line] at waits
    | cons b rest =>
      rw [line] at nodup waits
      refine ⟨b, rfl, fun self => (List.nodup_cons.mp nodup).1 ?_⟩
      rw [self]
      exact waits
  · rw [shape]
    exact List.take_append_drop 1 _
  · rw [shape]
    exact tracks.ordered e
  · intro a came
    refine (tracks.complete e a came).imp_right fun there => ?_
    rw [shape, List.mem_append]
    exact there.imp_left fun logged => List.mem_filter.mpr ⟨logged, decide_eq_true came⟩
  · exact fun event => tracks.lane_of_foreign

/-- One task has the lane of the sessions and four wait for it. The second of these is cancelled,
and the first wants to end before it has the lane. -/
def crowd : List (LaneEvent Nat) :=
  [.acquire 0 .sessions, .acquire 1 .sessions, .acquire 2 .sessions, .acquire 3 .sessions,
    .acquire 4 .logs, .acquire 5 .sessions, .cancel 2, .release 1, .release 0]

theorem lane_discipline_of_crowd :
    ((requests crowd).map (·.1)).Nodup ∧ Discipline crowd .sessions ∧
      lane crowd .sessions = ⟨1, [3], [5]⟩ ∧ grants crowd .sessions = [0, 1, 3] ∧
      lane crowd .logs = ⟨1, [4], []⟩ :=
  ⟨by decide, lane_discipline crowd (by decide) .sessions, by decide, by decide, by decide⟩

end Lanes

end Outbox
