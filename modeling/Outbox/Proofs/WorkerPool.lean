import Mathlib.Data.List.Induction
import Mathlib.Data.List.Perm.Basic
import Outbox.Delivery.Workers
import Outbox.Proofs.PermitLine

/-! # Jobs in turn

Jobs come at once or after a delay, are done, and are aborted: in their delay, while they wait for a
worker, or while they run. They begin to wait in the order of the times at which they are due, and
at one time in the order in which they were spawned. In that order they start, and a job waits only
while all workers are busy.
-/

namespace Outbox

/-- What happens to a number of workers. A name stands for one job. -/
inductive PoolEvent (α : Type) where
  /-- A brief job ends as soon as it runs. -/
  | spawn (job : α) (brief : Bool)
  | spawnAfter (delay : Nat) (job : α) (brief : Bool)
  /-- The job is done: it ends at once if it runs, and otherwise as soon as it does. -/
  | finish (job : α)
  | abort (job : α)
  | advance (span : Nat)
  deriving Repr, DecidableEq

/-- What becomes of a job. -/
inductive JobMark (α : Type) where
  | happened (event : JobEvent α)
  | aborted (job : α)
  deriving Repr, DecidableEq

namespace PoolEvent

variable {α : Type}

/-- The job that is spawned at this time, with the time at which it will ask for a worker. -/
def spawned? (now : Nat) : PoolEvent α → Option (Nat × α)
  | spawn a _ => some (now, a)
  | spawnAfter delay a _ => some (now + delay, a)
  | _ => none

def span : PoolEvent α → Nat
  | advance span => span
  | _ => 0

variable [DecidableEq α]

def spawns (a : α) : PoolEvent α → Bool
  | spawn b _ | spawnAfter _ b _ => a = b
  | _ => false

def spawnsBrief (a : α) : PoolEvent α → Bool
  | spawn b true | spawnAfter _ b true => a = b
  | _ => false

end PoolEvent

namespace JobMark

variable {α : Type}

def started? : JobMark α → Option α
  | happened (.started a) => some a
  | _ => none

/-- Who runs after this, if these run before it. -/
def after [DecidableEq α] (jobs : List α) : JobMark α → List α
  | happened (.started a) => jobs ++ [a]
  | happened (.ended a) | aborted a => jobs.erase a

end JobMark

namespace Workers

open scoped List

variable {α : Type}

/-! ## The order of the jobs -/

/-- The jobs that are due by a time, in the order of their times, and at one time in the order in
which they are listed. -/
def inTurn (jobs : List (Nat × α)) (time : Nat) : List α :=
  (List.range (time + 1)).flatMap fun t => (jobs.filter fun j => j.1 = t).map (·.2)

section

variable {jobs : List (Nat × α)} {time now target : Nat} {a : α}

theorem inTurn_succ (jobs : List (Nat × α)) (time : Nat) :
    inTurn jobs (time + 1) =
      inTurn jobs time ++ (jobs.filter fun j => j.1 = time + 1).map (·.2) := by
  rw [inTurn, List.range_succ, List.flatMap_append, ← inTurn]
  simp

theorem mem_inTurn : a ∈ inTurn jobs time ↔ ∃ due ≤ time, (due, a) ∈ jobs := by
  simp only [inTurn, List.mem_flatMap, List.mem_range, List.mem_map, List.mem_filter,
    decide_eq_true_eq]
  constructor
  · rintro ⟨t, within, ⟨due, b⟩, ⟨member, rfl⟩, rfl⟩
    exact ⟨due, Nat.lt_succ_iff.mp within, member⟩
  · rintro ⟨due, within, member⟩
    exact ⟨due, Nat.lt_succ_iff.mpr within, (due, a), ⟨member, rfl⟩, rfl⟩

/-- They are the jobs that are due, in another order. -/
theorem inTurn_perm (jobs : List (Nat × α)) (time : Nat) :
    inTurn jobs time ~ (jobs.filter fun j => j.1 ≤ time).map (·.2) := by
  induction time with
  | zero => simp [inTurn]
  | succ time ih =>
    rw [inTurn_succ]
    have parts := List.filter_append_perm (fun j : Nat × α => decide (j.1 ≤ time))
      (jobs.filter fun j => j.1 ≤ time + 1)
    rw [List.filter_filter, List.filter_filter] at parts
    have early : (jobs.filter fun j => decide (j.1 ≤ time) && decide (j.1 ≤ time + 1)) =
        jobs.filter fun j => j.1 ≤ time := by
      apply List.filter_congr
      intro j _
      rw [← Bool.decide_and]
      exact decide_eq_decide.mpr (by omega)
    have last : (jobs.filter fun j => !decide (j.1 ≤ time) && decide (j.1 ≤ time + 1)) =
        jobs.filter fun j => j.1 = time + 1 := by
      apply List.filter_congr
      intro j _
      rw [← decide_not, ← Bool.decide_and]
      exact decide_eq_decide.mpr (by omega)
    rw [early, last] at parts
    exact (ih.append_right _).trans (List.map_append ▸ parts.map (·.2))

theorem inTurn_nodup (distinct : (jobs.map (·.2)).Nodup) (time : Nat) : (inTurn jobs time).Nodup :=
  (inTurn_perm jobs time).nodup_iff.mpr (distinct.sublist (List.filter_sublist.map _))

theorem filter_inTurn (p : α → Bool) (jobs : List (Nat × α)) (time : Nat) :
    (inTurn jobs time).filter p = inTurn (jobs.filter fun j => p j.2) time := by
  simp only [inTurn, List.filter_flatMap, List.filter_map, List.filter_filter, Function.comp_def,
    Bool.and_comm]

theorem inTurn_sublist {others : List (Nat × α)} (sub : others <+ jobs) (time : Nat) :
    inTurn others time <+ inTurn jobs time := by
  induction time with
  | zero =>
    simp only [inTurn, List.range_succ, List.range_zero, List.nil_append, List.flatMap_singleton]
    exact (sub.filter _).map _
  | succ time ih =>
    rw [inTurn_succ, inTurn_succ]
    exact ih.append ((sub.filter _).map _)

theorem inTurn_concat_later (late : time < now) (jobs : List (Nat × α)) (a : α) :
    inTurn (jobs ++ [(now, a)]) time = inTurn jobs time := by
  induction time with
  | zero =>
    have other : now ≠ 0 := by omega
    simp [inTurn, other]
  | succ time ih =>
    have other : now ≠ time + 1 := by omega
    rw [inTurn_succ, inTurn_succ, ih (by omega), List.filter_append]
    simp [other]

/-- A job that is due now comes after all that were spawned before. -/
theorem inTurn_concat_now (jobs : List (Nat × α)) (now : Nat) (a : α) :
    inTurn (jobs ++ [(now, a)]) now = inTurn jobs now ++ [a] := by
  cases now with
  | zero => simp [inTurn]
  | succ now =>
    rw [inTurn_succ, inTurn_succ, inTurn_concat_later (Nat.lt_succ_self now), List.filter_append]
    simp

theorem inTurn_eq_nil (late : ∀ j ∈ jobs, time < j.1) : inTurn jobs time = [] := by
  rw [List.eq_nil_iff_forall_not_mem]
  intro a member
  obtain ⟨due, within, listed⟩ := mem_inTurn.mp member
  exact Nat.not_le_of_lt (late (due, a) listed) within

/-- Those that are due later come after those that are due now. -/
theorem inTurn_add (jobs : List (Nat × α)) (now span : Nat) :
    inTurn jobs (now + span) =
      inTurn jobs now ++ inTurn (jobs.filter fun j => now < j.1) (now + span) := by
  induction span with
  | zero =>
    have nobody : inTurn (jobs.filter fun j => now < j.1) now = [] :=
      inTurn_eq_nil fun j member => of_decide_eq_true (List.mem_filter.mp member).2
    rw [Nat.add_zero, nobody, List.append_nil]
  | succ span ih =>
    have last : (jobs.filter fun j => now < j.1).filter (fun j => j.1 = now + span + 1) =
        jobs.filter fun j => j.1 = now + span + 1 := by
      rw [List.filter_filter]
      apply List.filter_congr
      intro j _
      rw [← Bool.decide_and]
      exact decide_eq_decide.mpr (by omega)
    rw [← Nat.add_assoc, inTurn_succ, inTurn_succ, ih, last, List.append_assoc]

/-- The first of the jobs with the earliest time is the first in turn. -/
theorem inTurn_first {before after : List (Nat × α)}
    (earliest : ∀ j ∈ before ++ (time, a) :: after, time ≤ j.1) (first : ∀ j ∈ before, j.1 ≠ time)
    (span : Nat) :
    inTurn (before ++ (time, a) :: after) (time + span) =
      a :: inTurn (before ++ after) (time + span) := by
  have nobody : before.filter (fun j => j.1 = time) = [] := by
    rw [List.filter_eq_nil_iff]
    intro j member
    simpa using first j member
  have at_ (jobs : List (Nat × α)) (none_ : ∀ j ∈ jobs, time ≤ j.1) :
      inTurn jobs time = (jobs.filter fun j => j.1 = time).map (·.2) := by
    cases time with
    | zero => simp [inTurn]
    | succ t => rw [inTurn_succ, inTurn_eq_nil none_, List.nil_append]
  induction span with
  | zero =>
    rw [Nat.add_zero, at_ _ earliest, at_ _ fun j member => earliest j (by grind),
      List.filter_append, List.filter_append, nobody]
    simp
  | succ span ih =>
    have other : time ≠ time + span + 1 := by omega
    rw [← Nat.add_assoc, inTurn_succ, inTurn_succ, ih, List.filter_append, List.filter_append]
    simp [other]

end

/-! ## Histories -/

variable {events : List (PoolEvent α)} {marks : List (JobMark α)} {a b : α}

/-- What is spawned, with the times at which it is due. -/
def spawnedFrom (now : Nat) : List (PoolEvent α) → List (Nat × α)
  | [] => []
  | event :: events => (event.spawned? now).toList ++ spawnedFrom (now + event.span) events

def spawned (events : List (PoolEvent α)) : List (Nat × α) := spawnedFrom 0 events

/-- How much time has passed. -/
def elapsed : List (PoolEvent α) → Nat
  | [] => 0
  | event :: events => event.span + elapsed events

def started (marks : List (JobMark α)) : List α := marks.filterMap JobMark.started?

theorem elapsed_concat (events : List (PoolEvent α)) (event : PoolEvent α) :
    elapsed (events ++ [event]) = elapsed events + event.span := by
  induction events with
  | nil => simp [elapsed]
  | cons e events ih => rw [List.cons_append, elapsed, elapsed, ih, Nat.add_assoc]

theorem spawned_concat (events : List (PoolEvent α)) (event : PoolEvent α) :
    spawned (events ++ [event]) = spawned events ++ (event.spawned? (elapsed events)).toList := by
  have from_ (now : Nat) : spawnedFrom now (events ++ [event]) =
      spawnedFrom now events ++ (event.spawned? (now + elapsed events)).toList := by
    induction events generalizing now with
    | nil => simp [spawnedFrom, elapsed]
    | cons e events ih => simp [spawnedFrom, ih, elapsed, Nat.add_assoc]
  rw [spawned, from_ 0, Nat.zero_add, ← spawned]

variable [DecidableEq α]

/-- The job was aborted after it had been spawned. -/
def isAborted (events : List (PoolEvent α)) (a : α) : Bool :=
  happenedSince (PoolEvent.spawns a) events (.abort a)

/-- The job is to end as soon as it runs, or at once if it runs. -/
def isDone (events : List (PoolEvent α)) (a : α) : Bool :=
  events.any (PoolEvent.spawnsBrief a) || happenedSince (PoolEvent.spawns a) events (.finish a)

def step (w : Workers α) : PoolEvent α → Workers α × List (JobMark α)
  | .spawn a brief => heard (w.spawn a brief)
  | .spawnAfter delay a brief => heard (w.spawnAfter delay a brief)
  | .finish a => heard (w.finish a)
  | .abort a => ((w.abort a).1, .aborted a :: (heard (w.abort a)).2)
  | .advance span => heard (w.advance span)
where
  heard (r : Workers α × List (JobEvent α)) : Workers α × List (JobMark α) :=
    (r.1, r.2.map .happened)

/-- So many workers after some events, and what became of the jobs so far, in order. -/
def run (workers : Nat) (events : List (PoolEvent α)) : Workers α × List (JobMark α) :=
  events.foldl (fun r event => ((r.1.step event).1, r.2 ++ (r.1.step event).2))
    (ofCount workers, [])

/-- The jobs that run when all this has become of them. -/
def running (marks : List (JobMark α)) : List α := marks.foldl JobMark.after []

theorem run_concat (workers : Nat) (events : List (PoolEvent α)) (event : PoolEvent α) :
    run workers (events ++ [event]) =
      (((run workers events).1.step event).1,
        (run workers events).2 ++ ((run workers events).1.step event).2) := by
  rw [run, List.foldl_append]
  rfl

theorem running_concat (marks : List (JobMark α)) (mark : JobMark α) :
    running (marks ++ [mark]) = mark.after (running marks) := by
  rw [running, List.foldl_append]
  rfl

omit [DecidableEq α] in
theorem started_concat (marks : List (JobMark α)) (mark : JobMark α) :
    started (marks ++ [mark]) = started marks ++ mark.started?.toList := by
  cases mark with
  | happened event => cases event <;> simp [started, JobMark.started?]
  | aborted => simp [started, JobMark.started?]

theorem any_spawns : events.any (PoolEvent.spawns a) = decide (a ∈ (spawned events).map (·.2)) := by
  induction events using List.reverseRecOn with
  | nil => simp [spawned, spawnedFrom]
  | append_singleton events event ih =>
    rw [List.any_append, ih, Bool.eq_iff_iff, decide_eq_true_iff, spawned_concat]
    cases event <;> simp [PoolEvent.spawns, PoolEvent.spawned?]

theorem isAborted_concat (events : List (PoolEvent α)) (event : PoolEvent α) (a : α) :
    isAborted (events ++ [event]) a =
      (isAborted events a || (events.any (PoolEvent.spawns a) && decide (.abort a = event))) :=
  happenedSince_concat _ _ _ _

theorem isDone_concat (events : List (PoolEvent α)) (event : PoolEvent α) (a : α) :
    isDone (events ++ [event]) a =
      (isDone events a || event.spawnsBrief a ||
        (events.any (PoolEvent.spawns a) && decide (.finish a = event))) := by
  rw [isDone, isDone, happenedSince_concat, List.any_append, List.any_cons, List.any_nil,
    Bool.or_false]
  ac_rfl

theorem isAborted_of_fresh (fresh : a ∉ (spawned events).map (·.2)) :
    isAborted events a = false :=
  happenedSince_of_never (by rw [any_spawns, decide_eq_false fresh]) _

theorem isDone_of_fresh (fresh : a ∉ (spawned events).map (·.2)) : isDone events a = false := by
  have never : events.any (PoolEvent.spawns a) = false := by rw [any_spawns, decide_eq_false fresh]
  rw [isDone, happenedSince_of_never never, Bool.or_false, List.any_eq_false]
  intro event member brief
  refine List.any_eq_false.mp never event member ?_
  revert brief
  unfold PoolEvent.spawnsBrief PoolEvent.spawns
  grind

/-! ## One step after the other -/

variable {n : Nat} {order busy waiting : List α} {aborted done aborted' done' : α → Bool}
  {w : Workers α}

theorem depart_eq {line : List α} (at_ : w.permits = .ofLine n line) (nodup : line.Nodup) (a : α) :
    w.depart a =
      ({ w with permits := .ofLine n (line.erase a), brief := w.brief.filter fun b => b ≠ a },
        if a ∈ line.take n then (line.drop n).take 1 else []) := by
  unfold depart
  rw [at_, Permits.leave_ofLine n nodup]

/-- These jobs run and those behind them wait, as the history says: the jobs of the order started
one after the other, and those run that were neither aborted nor done. -/
structure Staffed (n : Nat) (order : List α) (aborted done : α → Bool) (w : Workers α)
    (marks : List (JobMark α)) (busy waiting : List α) : Prop where
  permits : w.permits = .ofLine n (busy ++ waiting)
  distinct : order.Nodup
  bound : ∀ past, past <+: marks → (running past).length ≤ n
  engaged : running marks = busy
  held : busy = (started marks).filter fun a => !aborted a && !done a
  ordered : started marks ++ waiting <+ order
  complete : (started marks ++ waiting).filter (fun a => !aborted a) =
    order.filter fun a => !aborted a
  brief : ∀ a, a ∉ started marks → aborted a = false → (a ∈ w.brief ↔ done a = true)
  kept : ∀ a ∈ waiting, aborted a = false

/-- No worker is idle while a job waits. -/
def Steady (n : Nat) (order : List α) (aborted done : α → Bool) (w : Workers α)
    (marks : List (JobMark α)) : Prop :=
  ∃ busy waiting, Staffed n order aborted done w marks busy waiting ∧
    (waiting ≠ [] → busy.length = n)

theorem bound_concat {mark : JobMark α} (bound : ∀ past, past <+: marks → (running past).length ≤ n)
    (last : (running (marks ++ [mark])).length ≤ n) :
    ∀ past, past <+: marks ++ [mark] → (running past).length ≤ n := by
  intro past is_past
  rcases List.prefix_concat_iff.mp is_past with rfl | before
  · exact last
  · exact bound past before

theorem Staffed.nodup (staffed : Staffed n order aborted done w marks busy waiting) :
    (started marks ++ waiting).Nodup :=
  staffed.distinct.sublist staffed.ordered

theorem Staffed.has_started (staffed : Staffed n order aborted done w marks busy waiting)
    (runs : a ∈ busy) : a ∈ started marks := by
  rw [staffed.held] at runs
  exact List.mem_of_mem_filter runs

theorem Staffed.line_nodup (staffed : Staffed n order aborted done w marks busy waiting) :
    (busy ++ waiting).Nodup := by
  refine staffed.nodup.sublist (List.Sublist.append ?_ (List.Sublist.refl _))
  rw [staffed.held]
  exact List.filter_sublist

theorem Staffed.length_le (staffed : Staffed n order aborted done w marks busy waiting) :
    busy.length ≤ n := by
  rw [← staffed.engaged]
  exact staffed.bound marks (List.prefix_refl marks)

/-- Who runs stands at the front of the line. -/
theorem Staffed.take_eq (staffed : Staffed n order aborted done w marks busy waiting)
    (full : waiting ≠ [] → busy.length = n) :
    (busy ++ waiting).take n = busy ∧ (busy ++ waiting).drop n = waiting := by
  by_cases nobody : waiting = []
  · subst nobody
    rw [List.append_nil]
    exact ⟨List.take_of_length_le staffed.length_le, List.drop_eq_nil_of_le staffed.length_le⟩
  · rw [← full nobody]
    exact ⟨List.take_left, List.drop_left⟩

/-- The first job that waits takes a free worker and keeps it. -/
theorem Staffed.starts (staffed : Staffed n order aborted done w marks busy (b :: waiting))
    (free : busy.length < n) (stays : done b = false) :
    Staffed n order aborted done w (marks ++ [.happened (.started b)]) (busy ++ [b]) waiting := by
  have runs : running (marks ++ [.happened (.started b)]) = busy ++ [b] := by
    rw [running_concat, staffed.engaged]
    rfl
  have more : started (marks ++ [.happened (.started b)]) = started marks ++ [b] :=
    started_concat _ _
  have same : started marks ++ [b] ++ waiting = started marks ++ b :: waiting := by simp
  have alive := staffed.kept b List.mem_cons_self
  refine ⟨?_, staffed.distinct, ?_, runs, ?_, ?_, ?_, ?_, ?_⟩
  · rw [staffed.permits]
    simp
  · refine bound_concat staffed.bound ?_
    rw [runs, List.length_append, List.length_singleton]
    exact free
  · rw [more, List.filter_append, ← staffed.held]
    simp [alive, stays]
  · rw [more, same]
    exact staffed.ordered
  · rw [more, same]
    exact staffed.complete
  · intro a fresh
    rw [more, List.mem_append, not_or] at fresh
    exact staffed.brief a fresh.1
  · exact fun a waits => staffed.kept a (List.mem_cons_of_mem _ waits)

/-- A brief job takes a free worker and gives it back at once. -/
theorem Staffed.flits (staffed : Staffed n order aborted done w marks busy (b :: waiting))
    (free : busy.length < n) (ends : done b = true) :
    Staffed n order aborted done (w.depart b).1
      (marks ++ [.happened (.started b)] ++ [.happened (.ended b)]) busy waiting := by
  have unlike : b ∉ busy := fun member =>
    List.disjoint_of_nodup_append staffed.line_nodup member List.mem_cons_self
  have runs : running (marks ++ [.happened (.started b)]) = busy ++ [b] := by
    rw [running_concat, staffed.engaged]
    rfl
  have rests : running (marks ++ [.happened (.started b)] ++ [.happened (.ended b)]) = busy := by
    rw [running_concat, runs]
    exact (List.erase_append_right _ unlike).trans (by simp)
  have more : started (marks ++ [.happened (.started b)] ++ [.happened (.ended b)]) =
      started marks ++ [b] := by
    rw [started_concat, started_concat]
    simp [JobMark.started?]
  have same : started marks ++ [b] ++ waiting = started marks ++ b :: waiting := by simp
  refine ⟨?_, staffed.distinct, ?_, rests, ?_, ?_, ?_, ?_, ?_⟩
  · rw [depart_eq staffed.permits staffed.line_nodup, List.erase_append_right _ unlike,
      List.erase_cons_head]
  · refine bound_concat (bound_concat staffed.bound ?_) ?_
    · rw [runs, List.length_append, List.length_singleton]
      exact free
    · rw [rests]
      exact staffed.length_le
  · rw [more, List.filter_append, ← staffed.held]
    simp [ends]
  · rw [more, same]
    exact staffed.ordered
  · rw [more, same]
    exact staffed.complete
  · intro a fresh alive
    rw [more, List.mem_append, not_or, List.mem_singleton] at fresh
    rw [depart_eq staffed.permits staffed.line_nodup, List.mem_filter, decide_eq_true_iff,
      staffed.brief a fresh.1 alive]
    exact and_iff_left fresh.2
  · exact fun a waits => staffed.kept a (List.mem_cons_of_mem _ waits)

/-- Brief jobs take the free worker one after the other, and then the next job keeps it. -/
theorem Staffed.steadies (fuel : Nat)
    (staffed : Staffed n order aborted done w marks busy waiting) (free : busy.length < n)
    (full : busy.length + 1 < n → waiting.length ≤ 1) (enough : waiting.length < fuel) :
    Steady n order aborted done (Workers.begin fuel w (waiting.take 1)).1
      (marks ++ (Workers.begin fuel w (waiting.take 1)).2.map .happened) := by
  induction waiting generalizing fuel w marks with
  | nil =>
    obtain ⟨fuel, rfl⟩ := Nat.exists_eq_succ_of_ne_zero (Nat.ne_of_gt enough)
    refine ⟨busy, [], ?_, fun waits => absurd rfl waits⟩
    simpa [Workers.begin] using staffed
  | cons b waiting ih =>
    obtain ⟨fuel, rfl⟩ := Nat.exists_eq_succ_of_ne_zero (Nat.ne_of_gt (Nat.zero_lt_of_lt enough))
    rw [List.length_cons] at enough full
    have short : waiting.length < fuel := by omega
    have fresh : b ∉ started marks := fun member =>
      List.disjoint_of_nodup_append staffed.nodup member List.mem_cons_self
    have known := staffed.brief b fresh (staffed.kept b List.mem_cons_self)
    rw [List.take_succ_cons, List.take_zero, Workers.begin]
    by_cases ends : done b = true
    · obtain ⟨more, rfl⟩ : ∃ more, n = busy.length + (more + 1) :=
        ⟨n - busy.length - 1, by omega⟩
      have next : (w.depart b).2 = waiting.take 1 := by
        have holds : b ∈ (busy ++ b :: waiting).take (busy.length + (more + 1)) := by
          rw [List.take_length_add_append]
          simp
        rw [depart_eq staffed.permits staffed.line_nodup, if_pos holds,
          List.drop_length_add_append, List.drop_succ_cons]
        cases more with
        | zero => rfl
        | succ more =>
          rw [List.eq_nil_of_length_eq_zero (l := waiting) (by omega)]
          rfl
      rw [if_pos (known.mpr ends)]
      dsimp only
      rw [List.nil_append, next]
      have rest := ih fuel (staffed.flits free ends)
        (fun spare => by have := full spare; omega) short
      simpa using rest
    · rw [if_neg fun brief => ends (known.mp brief)]
      obtain ⟨fuel, rfl⟩ := Nat.exists_eq_succ_of_ne_zero (Nat.ne_of_gt (Nat.zero_lt_of_lt short))
      refine ⟨busy ++ [b], waiting, staffed.starts free (by simpa using ends), fun waits => ?_⟩
      have some_ := List.length_pos_iff.mpr waits
      rw [List.length_append, List.length_singleton]
      omega

/-- A list is shorter than the list of all jobs if these are in line. -/
theorem Staffed.length_lt_line (staffed : Staffed n order aborted done w marks busy waiting) :
    waiting.length < w.line := by
  have whole : (busy ++ waiting).length ≤ w.alive.length := by
    unfold alive
    rw [staffed.permits, Permits.ofLine_holders, Permits.ofLine_waiting, List.take_append_drop]
    exact (List.sublist_append_left _ _).length_le
  rw [List.length_append] at whole
  unfold Workers.line
  omega

omit [DecidableEq α] in
theorem filter_eq_of_imp {p q : α → Bool} {l r : List α} (same : l.filter p = r.filter p)
    (imp : ∀ a, q a = true → p a = true) : l.filter q = r.filter q := by
  have narrow (l : List α) : (l.filter p).filter q = l.filter q := by
    rw [List.filter_filter]
    apply List.filter_congr
    intro a _
    rw [Bool.and_eq_left_iff_imp]
    exact imp a
  rw [← narrow l, ← narrow r, same]

/-- A job is off its worker or out of the line, wherever it was: it is aborted, or it ran and is
done. -/
theorem Staffed.leaves {mark : JobMark α}
    (staffed : Staffed n order aborted done w marks busy waiting)
    (silent : mark.started? = none) (off : ∀ jobs : List α, mark.after jobs = jobs.erase a)
    (others : ∀ b, b ≠ a → aborted' b = aborted b ∧ done' b = done b)
    (more : ∀ b, aborted b = true → aborted' b = true)
    (spent : a ∈ order ∨ done' a = true → aborted' a = true ∨ (a ∈ busy ∧ done' a = true)) :
    Staffed n order aborted' done' (w.depart a).1 (marks ++ [mark]) (busy.erase a)
      (waiting.erase a) := by
  have nodup := staffed.line_nodup
  have same : started (marks ++ [mark]) = started marks := by
    rw [started_concat, silent, Option.toList_none, List.append_nil]
  have runs : running (marks ++ [mark]) = busy.erase a := by
    rw [running_concat, staffed.engaged, off]
  have known (waits : a ∈ waiting) : aborted' a = true := by
    have ordered : a ∈ order := staffed.ordered.subset (List.mem_append_right _ waits)
    refine (spent (.inl ordered)).resolve_right fun both => ?_
    exact List.disjoint_of_nodup_append nodup both.1 waits
  have parts : (busy ++ waiting).erase a = busy.erase a ++ waiting.erase a := by
    by_cases member : a ∈ busy
    · rw [List.erase_append_left _ member,
        List.erase_of_not_mem (List.disjoint_of_nodup_append nodup member)]
    · rw [List.erase_append_right _ member, List.erase_of_not_mem member]
  refine ⟨?_, staffed.distinct, ?_, runs, ?_, ?_, ?_, ?_, ?_⟩
  · rw [depart_eq staffed.permits nodup, parts]
  · refine bound_concat staffed.bound ?_
    rw [runs]
    exact Nat.le_trans List.erase_sublist.length_le staffed.length_le
  · rw [same, nodup.of_append_left.erase_eq_filter, staffed.held, List.filter_filter]
    apply List.filter_congr
    intro b began
    by_cases self : b = a
    · subst self
      have ordered : b ∈ order := staffed.ordered.subset (List.mem_append_left _ began)
      rcases spent (.inl ordered) with gone | ⟨-, ended⟩
      · simp [gone]
      · simp [ended]
    · simp [others b self, self]
  · rw [same]
    exact ((List.Sublist.refl _).append List.erase_sublist).trans staffed.ordered
  · have whole : (started marks ++ waiting).filter (fun b => !aborted' b) =
        order.filter fun b => !aborted' b :=
      filter_eq_of_imp staffed.complete fun b stays => by
        have := more b
        grind
    rw [same, ← whole, List.filter_append, List.filter_append]
    congr 1
    by_cases waits : a ∈ waiting
    · rw [nodup.of_append_right.erase_eq_filter, List.filter_filter]
      apply List.filter_congr
      intro b _
      by_cases self : b = a
      · simp [self, known waits]
      · simp [self]
    · rw [List.erase_of_not_mem waits]
  · intro b fresh stays
    rw [same] at fresh
    rw [depart_eq staffed.permits nodup, List.mem_filter, decide_eq_true_iff]
    by_cases self : b = a
    · subst self
      have idle : done' b ≠ true := fun ended => by
        rcases spent (.inr ended) with gone | ⟨runs, -⟩
        · simp [gone] at stays
        · exact fresh (staffed.has_started runs)
      simp [idle]
    · rw [(others b self).1] at stays
      rw [(others b self).2, staffed.brief b fresh stays]
      exact and_iff_left self
  · intro b waits
    have self : b ≠ a := by
      rintro rfl
      exact (nodup.of_append_right.not_mem_erase) waits
    rw [(others b self).1]
    exact staffed.kept b (List.mem_of_mem_erase waits)

theorem Steady.leaves {mark : JobMark α} (steady : Steady n order aborted done w marks)
    (silent : mark.started? = none) (off : ∀ jobs : List α, mark.after jobs = jobs.erase a)
    (others : ∀ b, b ≠ a → aborted' b = aborted b ∧ done' b = done b)
    (more : ∀ b, aborted b = true → aborted' b = true)
    (spent : a ∈ order ∨ done' a = true →
      aborted' a = true ∨ (w.isRunning a = true ∧ done' a = true)) :
    Steady n order aborted' done'
      (Workers.begin (w.depart a).1.line (w.depart a).1 (w.depart a).2).1
      (marks ++ mark ::
        (Workers.begin (w.depart a).1.line (w.depart a).1 (w.depart a).2).2.map .happened) := by
  obtain ⟨busy, waiting, staffed, full⟩ := steady
  obtain ⟨front, back⟩ := staffed.take_eq full
  have runs : w.isRunning a = true ↔ a ∈ busy := by
    rw [isRunning, staffed.permits, Permits.holds_ofLine, front]
  rw [runs] at spent
  have left_ := staffed.leaves silent off others more spent
  have next : (w.depart a).2 = if a ∈ busy then waiting.take 1 else [] := by
    rw [depart_eq staffed.permits staffed.line_nodup, front, back]
  rw [next, List.append_cons]
  by_cases member : a ∈ busy
  · have some_ := List.length_pos_of_mem member
    have fewer := List.length_erase_of_mem member
    have within := staffed.length_le
    have elsewhere : a ∉ waiting := List.disjoint_of_nodup_append staffed.line_nodup member
    rw [List.erase_of_not_mem elsewhere] at left_
    rw [if_pos member]
    refine left_.steadies _ (by omega) (fun spare => ?_) left_.length_lt_line
    by_cases nobody : waiting = []
    · simp [nobody]
    · have := full nobody
      omega
  · rw [if_neg member]
    rw [List.erase_of_not_mem member] at left_
    refine ⟨busy, waiting.erase a, ?_, fun waits => full fun nobody => waits (by simp [nobody])⟩
    simpa [Workers.begin, Workers.line] using left_

/-- A job comes and takes a worker or waits behind the others. -/
theorem Steady.enqueue (steady : Steady n order aborted done w marks) (fresh : a ∉ order)
    (alive : aborted a = false) :
    Steady n (order ++ [a]) aborted done (w.enqueue a).1
      (marks ++ (w.enqueue a).2.map .happened) := by
  obtain ⟨busy, waiting, staffed, full⟩ := steady
  have grown : Staffed n (order ++ [a]) aborted done
      { w with permits := .ofLine n (busy ++ waiting ++ [a]) } marks busy (waiting ++ [a]) := by
    refine ⟨?_, ?_, staffed.bound, staffed.engaged, staffed.held, ?_, ?_, staffed.brief, ?_⟩
    · rw [List.append_assoc]
    · exact List.concat_eq_append ▸ staffed.distinct.concat fresh
    · rw [← List.append_assoc]
      exact staffed.ordered.append (List.Sublist.refl _)
    · rw [← List.append_assoc, List.filter_append, staffed.complete, List.filter_append]
    · intro b waits
      rcases List.mem_append.mp waits with before | last
      · exact staffed.kept b before
      · rw [List.mem_singleton.mp last]
        exact alive
  unfold Workers.enqueue
  rw [staffed.permits, Permits.request_ofLine]
  dsimp only
  by_cases room : (busy ++ waiting).length < n
  · have nobody : waiting = [] := by
      by_contra some_
      have := full some_
      rw [List.length_append] at room
      omega
    subst nobody
    rw [if_pos room]
    rw [List.append_nil] at room
    exact grown.steadies _ room (fun _ => Nat.le_refl 1) grown.length_lt_line
  · rw [if_neg room]
    refine ⟨busy, waiting ++ [a], ?_, fun _ => ?_⟩
    · simpa [Workers.begin, Workers.line] using grown
    · rw [List.length_append] at room
      have within := staffed.length_le
      by_cases nobody : waiting = []
      · subst nobody
        rw [List.length_nil] at room
        omega
      · exact full nobody

/-- Neither the time nor the jobs in their delay matter to those that run or wait. -/
theorem Steady.alter (steady : Steady n order aborted done w marks) (delayed : List (Nat × α))
    (now : Nat) : Steady n order aborted done { w with delayed, now } marks := by
  obtain ⟨busy, waiting, staffed, full⟩ := steady
  exact ⟨busy, waiting, { staffed with permits := staffed.permits, brief := staffed.brief }, full⟩

/-- More jobs are known, but these were aborted before their turn. -/
theorem Steady.widen {order' : List α} (steady : Steady n order aborted done w marks)
    (distinct : order'.Nodup) (sub : order <+ order')
    (same : order.filter (fun a => !aborted a) = order'.filter fun a => !aborted a) :
    Steady n order' aborted done w marks := by
  obtain ⟨busy, waiting, staffed, full⟩ := steady
  exact ⟨busy, waiting,
    { staffed with
      distinct, ordered := staffed.ordered.trans sub, complete := staffed.complete.trans same },
    full⟩

/-- What is known of jobs that have not started does not matter to those that run or wait. -/
theorem Steady.note {brief : List α} (steady : Steady n order aborted done w marks)
    (held : ∀ a ∈ started marks, aborted a = false → done' a = done a)
    (known : ∀ a, a ∉ started marks → aborted a = false → (a ∈ brief ↔ done' a = true)) :
    Steady n order aborted done' { w with brief } marks := by
  obtain ⟨busy, waiting, staffed, full⟩ := steady
  refine ⟨busy, waiting, { staffed with held := ?_, brief := known }, full⟩
  rw [staffed.held]
  apply List.filter_congr
  intro a began
  have := held a began
  grind

/-! ## The passing of time -/

theorem begin_frame (fuel : Nat) (w : Workers α) (granted : List α) :
    (Workers.begin fuel w granted).1.delayed = w.delayed ∧
      (Workers.begin fuel w granted).1.now = w.now := by
  induction fuel generalizing w granted with
  | zero => exact ⟨rfl, rfl⟩
  | succ fuel ih =>
    cases granted with
    | nil => exact ⟨rfl, rfl⟩
    | cons a granted =>
      rw [Workers.begin]
      split
      · exact ih _ _
      · exact ih w granted

@[simp]
theorem enqueue_delayed (w : Workers α) (a : α) : (w.enqueue a).1.delayed = w.delayed :=
  (begin_frame _ _ _).1

@[simp]
theorem enqueue_now (w : Workers α) (a : α) : (w.enqueue a).1.now = w.now :=
  (begin_frame _ _ _).2

/-- The delay that ends next: the first one with the earliest time. -/
def next? (w : Workers α) : Option (Nat × α) :=
  w.delayed.find? fun d => some d.1 == w.nextTime?

omit [DecidableEq α] in
theorem delayed_of_next?_eq_none (none_ : w.next? = none) : w.delayed = [] := by
  by_contra some_
  rw [next?, List.find?_eq_none] at none_
  cases least : w.nextTime? with
  | none =>
    rw [nextTime?, List.min?_eq_none_iff, List.map_eq_nil_iff] at least
    exact some_ least
  | some time =>
    obtain ⟨member, -⟩ := List.min?_eq_some_iff.mp least
    obtain ⟨j, listed, rfl⟩ := List.mem_map.mp member
    exact none_ j listed (by simp [least])

theorem delayed_of_next?_eq_some {time : Nat} (next : w.next? = some (time, a)) :
    ∃ before after, w.delayed = before ++ (time, a) :: after ∧
      w.delayed.erase (time, a) = before ++ after ∧ (∀ j ∈ before, j.1 ≠ time) ∧
        ∀ j ∈ w.delayed, time ≤ j.1 := by
  obtain ⟨least, before, after, shape, others⟩ := List.find?_eq_some_iff_append.mp next
  have least : w.nextTime? = some time := (beq_iff_eq.mp least).symm
  have first : ∀ j ∈ before, j.1 ≠ time := fun j member same => by
    have := others j member
    simp [least, same] at this
  refine ⟨before, after, shape, ?_, first, fun j member => ?_⟩
  · have absent : (time, a) ∉ before := fun member => first (time, a) member rfl
    rw [shape, List.erase_append_right _ absent, List.erase_cons_head]
  · exact (List.min?_eq_some_iff.mp least).2 j.1 (List.mem_map_of_mem member)

theorem advanceTo_of_none (none_ : w.next? = none) (fuel target : Nat) :
    advanceTo (fuel + 1) w target = ({ w with now := target }, []) := by
  rw [advanceTo, ← next?, none_]

theorem advanceTo_of_late {time target : Nat} (next : w.next? = some (time, a))
    (late : target < time) (fuel : Nat) :
    advanceTo (fuel + 1) w target = ({ w with now := target }, []) := by
  rw [advanceTo, ← next?, next]
  exact if_neg (Nat.not_le_of_lt late)

/-- The workers when this delay ends, and what happens then. -/
def fires (w : Workers α) (time : Nat) (a : α) : Workers α × List (JobEvent α) :=
  ({ w with delayed := w.delayed.erase (time, a), now := time } : Workers α).enqueue a

theorem advanceTo_of_due {time target : Nat} (next : w.next? = some (time, a))
    (due : time ≤ target) (fuel : Nat) :
    advanceTo (fuel + 1) w target =
      ((advanceTo fuel (w.fires time a).1 target).1,
        (w.fires time a).2 ++ (advanceTo fuel (w.fires time a).1 target).2) := by
  rw [advanceTo, ← next?, next]
  exact if_pos due

omit [DecidableEq α] in
theorem length_pos_of_next? {d : Nat × α} (next : w.next? = some d) : 0 < w.delayed.length :=
  List.length_pos_of_mem (List.mem_of_find?_eq_some next)

theorem length_fires {time : Nat} (next : w.next? = some (time, a)) :
    (w.fires time a).1.delayed.length = w.delayed.length - 1 := by
  rw [fires, enqueue_delayed]
  exact List.length_erase_of_mem (List.mem_of_find?_eq_some next)

/-- Only the delays that end later are left. -/
theorem advanceTo_frame {fuel : Nat} (target : Nat) (enough : w.delayed.length < fuel) :
    (advanceTo fuel w target).1.now = target ∧
      (advanceTo fuel w target).1.delayed = w.delayed.filter fun j => target < j.1 := by
  induction fuel generalizing w with
  | zero => exact absurd enough (Nat.not_lt_zero _)
  | succ fuel ih =>
    cases next : w.next? with
    | none =>
      rw [advanceTo_of_none next]
      exact ⟨rfl, by simp [delayed_of_next?_eq_none next]⟩
    | some d =>
      obtain ⟨time, a⟩ := d
      obtain ⟨before, after, shape, rest, first, earliest⟩ := delayed_of_next?_eq_some next
      by_cases due : time ≤ target
      · have some_ := length_pos_of_next? next
        have fewer := length_fires next
        rw [advanceTo_of_due next due]
        obtain ⟨now_, delayed_⟩ := ih (w := (w.fires time a).1) (by omega)
        refine ⟨now_, delayed_.trans ?_⟩
        rw [fires, enqueue_delayed, rest, shape]
        simp [due]
      · have late := Nat.lt_of_not_le due
        rw [advanceTo_of_late next late]
        refine ⟨rfl, (List.filter_eq_self.mpr fun j member => ?_).symm⟩
        exact decide_eq_true (Nat.lt_of_lt_of_le late (earliest j member))

/-- Every delay that ends by then makes its job run or wait, in turn. -/
theorem Steady.advanceTo {fuel : Nat} (target : Nat) (steady : Steady n order aborted done w marks)
    (enough : w.delayed.length < fuel) (distinct : (order ++ w.delayed.map (·.2)).Nodup)
    (alive : ∀ j ∈ w.delayed, aborted j.2 = false) :
    Steady n (order ++ inTurn w.delayed target) aborted done (advanceTo fuel w target).1
      (marks ++ (advanceTo fuel w target).2.map .happened) := by
  induction fuel generalizing w marks order with
  | zero => exact absurd enough (Nat.not_lt_zero _)
  | succ fuel ih =>
    cases next : w.next? with
    | none =>
      have nobody := delayed_of_next?_eq_none next
      rw [advanceTo_of_none next, nobody, inTurn_eq_nil (by simp), List.append_nil, List.map_nil,
        List.append_nil]
      exact steady.alter [] target
    | some d =>
      obtain ⟨time, a⟩ := d
      obtain ⟨before, after, shape, rest, first, earliest⟩ := delayed_of_next?_eq_some next
      by_cases due : time ≤ target
      · obtain ⟨span, rfl⟩ := Nat.exists_eq_add_of_le due
        have left_ : (w.fires time a).1.delayed = before ++ after := by
          rw [fires, enqueue_delayed, rest]
        have some_ := length_pos_of_next? next
        have fewer := length_fires next
        have apart : a ∉ order := fun member =>
          List.disjoint_of_nodup_append distinct member (by simp [shape])
        have comes : Steady n (order ++ [a]) aborted done (w.fires time a).1
            (marks ++ (w.fires time a).2.map .happened) :=
          (steady.alter (w.delayed.erase (time, a)) time).enqueue apart
            (alive (time, a) (by simp [shape]))
        have others := ih comes (by omega) (by
          rw [left_]
          refine distinct.perm ?_
          rw [shape]
          simp only [List.map_append, List.map_cons, List.append_assoc]
          exact List.Perm.append_left _ List.perm_middle) (fun j member => by
          rw [left_] at member
          exact alive j (by grind))
        rw [left_] at others
        rw [advanceTo_of_due next due, shape, inTurn_first (shape ▸ earliest) first span,
          List.append_cons, List.map_append, ← List.append_assoc]
        exact others
      · have late := Nat.lt_of_not_le due
        rw [advanceTo_of_late next late,
          inTurn_eq_nil fun j member => Nat.lt_of_lt_of_le late (earliest j member),
          List.append_nil, List.map_nil, List.append_nil]
        exact steady.alter w.delayed target

/-- It does not matter how many steps there are left, as long as there are enough, and from when on
time passes. -/
theorem advanceTo_congr {fuel fuel' target : Nat} (enough : w.delayed.length < fuel)
    (enough' : w.delayed.length < fuel') (now : Nat) :
    advanceTo fuel w target = advanceTo fuel' { w with now } target := by
  induction fuel generalizing fuel' w now with
  | zero => exact absurd enough (Nat.not_lt_zero _)
  | succ fuel ih =>
    obtain ⟨fuel', rfl⟩ := Nat.exists_eq_succ_of_ne_zero (Nat.ne_of_gt (Nat.zero_lt_of_lt enough'))
    cases next : w.next? with
    | none => rw [advanceTo_of_none next, advanceTo_of_none (w := { w with now }) next]
    | some d =>
      obtain ⟨time, a⟩ := d
      by_cases due : time ≤ target
      · have some_ := length_pos_of_next? next
        have fewer := length_fires next
        rw [advanceTo_of_due next due, advanceTo_of_due (w := { w with now }) next due]
        have left_ : (w.fires time a).1.delayed.length < fuel := by omega
        have left' : (w.fires time a).1.delayed.length < fuel' := by omega
        rw [ih left_ left' (w.fires time a).1.now]
        rfl
      · have late := Nat.lt_of_not_le due
        rw [advanceTo_of_late next late, advanceTo_of_late (w := { w with now }) next late]

/-- One may stop on the way. -/
theorem advanceTo_trans {fuel fuel' mid target : Nat} (enough : w.delayed.length < fuel)
    (enough' : (advanceTo fuel w mid).1.delayed.length < fuel') (within : mid ≤ target) :
    advanceTo fuel w target =
      ((advanceTo fuel' (advanceTo fuel w mid).1 target).1,
        (advanceTo fuel w mid).2 ++ (advanceTo fuel' (advanceTo fuel w mid).1 target).2) := by
  induction fuel generalizing w with
  | zero => exact absurd enough (Nat.not_lt_zero _)
  | succ fuel ih =>
    cases next : w.next? with
    | none =>
      rw [advanceTo_of_none next fuel mid] at enough' ⊢
      rw [List.nil_append, ← advanceTo_congr enough enough']
    | some d =>
      obtain ⟨time, a⟩ := d
      by_cases due : time ≤ mid
      · have some_ := length_pos_of_next? next
        have fewer := length_fires next
        rw [advanceTo_of_due next due] at enough' ⊢
        rw [advanceTo_of_due next (Nat.le_trans due within), ih (by omega) enough',
          List.append_assoc]
      · rw [advanceTo_of_late next (Nat.lt_of_not_le due)] at enough' ⊢
        rw [List.nil_append, ← advanceTo_congr enough enough']

theorem advance_add (w : Workers α) (span rest : Nat) :
    w.advance (span + rest) =
      (((w.advance span).1.advance rest).1,
        (w.advance span).2 ++ ((w.advance span).1.advance rest).2) := by
  have now_ : (w.advance span).1.now = w.now + span :=
    (advanceTo_frame _ (Nat.lt_succ_self _)).1
  have whole := advanceTo_trans (Nat.lt_succ_self w.delayed.length)
    (Nat.lt_succ_self (w.advance span).1.delayed.length) (Nat.le_add_right (w.now + span) rest)
  rw [← advance] at whole
  rw [advance, advance, ← Nat.add_assoc, now_]
  exact whole

/-! ## Keeping track -/

/-- The workers are as the history says. -/
structure Tracks (workers : Nat) (events : List (PoolEvent α)) (w : Workers α)
    (marks : List (JobMark α)) : Prop where
  now : w.now = elapsed events
  delayed : w.delayed =
    (spawned events).filter fun j => !isAborted events j.2 && elapsed events < j.1
  steady : Steady (max workers 1) (inTurn (spawned events) (elapsed events)) (isAborted events)
    (isDone events) w marks

variable {workers : Nat}

omit [DecidableEq α] in
theorem mem_names_of_turn {jobs : List (Nat × α)} {time : Nat} (turn : a ∈ inTurn jobs time) :
    a ∈ jobs.map (·.2) := by
  obtain ⟨due, -, listed⟩ := mem_inTurn.mp turn
  exact List.mem_map.mpr ⟨(due, a), listed, rfl⟩

omit [DecidableEq α] in
theorem spawned_of_none {event : PoolEvent α} (none_ : event.spawned? (elapsed events) = none) :
    spawned (events ++ [event]) = spawned events := by
  rw [spawned_concat, none_, Option.toList_none, List.append_nil]

omit [DecidableEq α] in
theorem elapsed_of_still {event : PoolEvent α} (still : event.span = 0) :
    elapsed (events ++ [event]) = elapsed events := by
  rw [elapsed_concat, still, Nat.add_zero]

theorem isAborted_abort (came : a ∈ (spawned events).map (·.2)) :
    isAborted (events ++ [.abort a]) a = true := by
  rw [isAborted_concat, any_spawns, decide_eq_true came]
  simp

theorem isDone_finish (came : a ∈ (spawned events).map (·.2)) :
    isDone (events ++ [.finish a]) a = true := by
  rw [isDone_concat, any_spawns, decide_eq_true came]
  simp

theorem isAborted_of_ne {event : PoolEvent α} (other : .abort a ≠ event) :
    isAborted (events ++ [event]) a = isAborted events a := by
  rw [isAborted_concat, decide_eq_false other, Bool.and_false, Bool.or_false]

theorem isDone_of_ne {event : PoolEvent α} (other : .finish a ≠ event)
    (calm : event.spawnsBrief a = false) : isDone (events ++ [event]) a = isDone events a := by
  rw [isDone_concat, decide_eq_false other, calm, Bool.and_false, Bool.or_false, Bool.or_false]

theorem Steady.mem_order (steady : Steady n order aborted done w marks)
    (began : a ∈ started marks) : a ∈ order := by
  obtain ⟨busy, waiting, staffed, -⟩ := steady
  exact staffed.ordered.subset (List.mem_append_left _ began)

theorem Steady.mem_brief (steady : Steady n order aborted done w marks) (fresh : a ∉ started marks)
    (alive : aborted a = false) : a ∈ w.brief ↔ done a = true := by
  obtain ⟨busy, waiting, staffed, -⟩ := steady
  exact staffed.brief a fresh alive

/-- The workers when it is known whether a new job is a brief one. -/
def learn (w : Workers α) (a : α) (brief : Bool) : Workers α :=
  { w with brief := if brief then a :: w.brief else w.brief }

omit [DecidableEq α] in
theorem learn_eq (w : Workers α) (a : α) (brief : Bool) :
    (if brief then { w with brief := a :: w.brief } else w) = w.learn a brief := by
  cases brief <;> rfl

/-- A new job is spawned, which may be a brief one. -/
theorem Tracks.learn {event : PoolEvent α} {due : Nat} {brief : Bool}
    (tracks : Tracks workers events w marks) (fresh : a ∉ (spawned events).map (·.2))
    (comes : event.spawned? (elapsed events) = some (due, a))
    (kind : ∀ b, event.spawnsBrief b = (brief && decide (b = a))) :
    isAborted (events ++ [event]) = isAborted events ∧
      Steady (max workers 1) (inTurn (spawned events) (elapsed events))
        (isAborted (events ++ [event])) (isDone (events ++ [event])) (w.learn a brief) marks := by
  have quiet (b : α) : PoolEvent.abort b ≠ event ∧ PoolEvent.finish b ≠ event := by
    constructor <;> rintro rfl <;> cases comes
  have aborted_ : isAborted (events ++ [event]) = isAborted events :=
    funext fun b => isAborted_of_ne (quiet b).1
  have others (b : α) (other : b ≠ a) : isDone (events ++ [event]) b = isDone events b :=
    isDone_of_ne (quiet b).2 (by rw [kind, decide_eq_false other, Bool.and_false])
  have unknown := isDone_of_fresh fresh
  have own : isDone (events ++ [event]) a = brief := by
    rw [isDone_concat, unknown, kind, decide_eq_false (quiet a).2]
    simp
  have unbegun : a ∉ started marks := fun began =>
    fresh (mem_names_of_turn (tracks.steady.mem_order began))
  refine ⟨aborted_, ?_⟩
  rw [aborted_]
  refine tracks.steady.note (fun b began _ => others b ?_) fun b waits alive => ?_
  · rintro rfl
    exact unbegun began
  · have known := tracks.steady.mem_brief waits alive
    by_cases self : b = a
    · subst self
      rw [unknown] at known
      rw [own]
      cases brief <;> simp [known]
    · rw [others b self, ← known]
      cases brief <;> simp [self]

theorem Tracks.spawn {event : PoolEvent α} {brief : Bool} (tracks : Tracks workers events w marks)
    (fresh : a ∉ (spawned events).map (·.2))
    (comes : event.spawned? (elapsed events) = some (elapsed events, a)) (now : event.span = 0)
    (kind : ∀ b, event.spawnsBrief b = (brief && decide (b = a))) :
    Tracks workers (events ++ [event]) (w.spawn a brief).1
      (marks ++ (w.spawn a brief).2.map .happened) := by
  obtain ⟨aborted_, steady⟩ := tracks.learn fresh comes kind
  have unlisted : a ∉ inTurn (spawned events) (elapsed events) := fun turn =>
    fresh (mem_names_of_turn turn)
  have alive : isAborted (events ++ [event]) a = false := by
    rw [aborted_, isAborted_of_fresh fresh]
  unfold Workers.spawn
  rw [learn_eq]
  refine ⟨?_, ?_, ?_⟩
  · rw [enqueue_now, elapsed_concat, now]
    exact tracks.now
  · rw [enqueue_delayed, spawned_concat, comes, elapsed_concat, now, aborted_, List.filter_append]
    simpa [Workers.learn] using tracks.delayed
  · rw [spawned_concat, comes, elapsed_concat, now]
    exact inTurn_concat_now (spawned events) (elapsed events) a ▸ steady.enqueue unlisted alive

theorem Tracks.spawnAfter {delay : Nat} {brief : Bool} (tracks : Tracks workers events w marks)
    (fresh : a ∉ (spawned events).map (·.2)) :
    Tracks workers (events ++ [.spawnAfter delay a brief]) (w.spawnAfter delay a brief).1
      (marks ++ (w.spawnAfter delay a brief).2.map .happened) := by
  have kind (b : α) : (PoolEvent.spawnAfter delay a brief).spawnsBrief b =
      (brief && decide (b = a)) := by
    cases brief <;> rfl
  unfold Workers.spawnAfter
  split
  case isTrue none_ =>
    subst none_
    exact tracks.spawn fresh rfl rfl kind
  case isFalse some_ =>
    have comes : (PoolEvent.spawnAfter delay a brief).spawned? (elapsed events) =
        some (elapsed events + delay, a) := rfl
    have late : elapsed events < elapsed events + delay := by omega
    have time : elapsed (events ++ [.spawnAfter delay a brief]) = elapsed events :=
      elapsed_of_still rfl
    obtain ⟨aborted_, steady⟩ := tracks.learn fresh comes kind
    have alive := isAborted_of_fresh fresh
    rw [learn_eq, List.map_nil, List.append_nil]
    refine ⟨?_, ?_, ?_⟩
    · rw [time]
      exact tracks.now
    · have kept : [(elapsed events + delay, a)].filter
          (fun j => !isAborted events j.2 && elapsed events < j.1) =
            [(elapsed events + delay, a)] :=
        List.filter_eq_self.mpr (by simp [alive, Nat.pos_of_ne_zero some_])
      rw [spawned_concat, time, aborted_, List.filter_append, comes, Option.toList_some, kept,
        ← tracks.delayed, ← tracks.now]
      rfl
    · rw [spawned_concat, comes, time]
      exact inTurn_concat_later late (spawned events) a ▸ steady.alter _ _

/-- Every job that is still there, but does not run, waits or is in its delay. -/
theorem Tracks.mem_alive (tracks : Tracks workers events w marks)
    (came : a ∈ (spawned events).map (·.2)) (alive : isAborted events a = false)
    (fresh : a ∉ started marks) : a ∈ w.alive := by
  obtain ⟨⟨due, b⟩, listed, rfl⟩ := List.mem_map.mp came
  unfold Workers.alive
  rcases Nat.lt_or_ge (elapsed events) due with later | now
  · refine List.mem_append_right _ (List.mem_map.mpr ⟨(due, b), ?_, rfl⟩)
    rw [tracks.delayed, List.mem_filter]
    exact ⟨listed, by simp [alive, later]⟩
  · obtain ⟨busy, waiting, staffed, -⟩ := tracks.steady
    have turn : b ∈ (inTurn (spawned events) (elapsed events)).filter
        fun b => !isAborted events b :=
      List.mem_filter.mpr ⟨mem_inTurn.mpr ⟨due, now, listed⟩, by simp [alive]⟩
    rw [← staffed.complete, List.mem_filter, List.mem_append] at turn
    have waits := turn.1.resolve_left fresh
    rw [staffed.permits, Permits.ofLine_holders, Permits.ofLine_waiting, List.take_append_drop]
    exact List.mem_append_left _ (List.mem_append_right _ waits)

theorem Tracks.spawned_of_alive (tracks : Tracks workers events w marks) (there : a ∈ w.alive) :
    a ∈ (spawned events).map (·.2) := by
  obtain ⟨busy, waiting, staffed, -⟩ := tracks.steady
  unfold Workers.alive at there
  rw [staffed.permits, Permits.ofLine_holders, Permits.ofLine_waiting, List.take_append_drop,
    List.mem_append, List.mem_append] at there
  rcases there with (runs | waits) | delayed
  · exact mem_names_of_turn (staffed.ordered.subset
      (List.mem_append_left _ (staffed.has_started runs)))
  · exact mem_names_of_turn (staffed.ordered.subset (List.mem_append_right _ waits))
  · rw [tracks.delayed] at delayed
    exact (List.filter_sublist.map _).subset delayed

/-- A job that does not run is to end as soon as it runs. -/
theorem Tracks.finish_later (tracks : Tracks workers events w marks)
    (rests : ¬ w.isRunning a = true) (brief : List α)
    (known : ∀ b, b ∉ started marks → isAborted events b = false →
      (b ∈ brief ↔ isDone (events ++ [.finish a]) b = true)) :
    Tracks workers (events ++ [.finish a]) { w with brief } marks := by
  have aborted_ : isAborted (events ++ [.finish a]) = isAborted events :=
    funext fun b => isAborted_of_ne (by simp)
  have same : spawned (events ++ [.finish a]) = spawned events := spawned_of_none rfl
  have time : elapsed (events ++ [.finish a]) = elapsed events := elapsed_of_still rfl
  refine ⟨?_, ?_, ?_⟩
  · rw [time]
    exact tracks.now
  · rw [same, time, aborted_]
    exact tracks.delayed
  · rw [same, time, aborted_]
    refine tracks.steady.note (fun b began alive => ?_) known
    by_cases self : b = a
    · subst self
      -- it ran before and does not run any more, so it was done
      obtain ⟨busy, waiting, staffed, full⟩ := tracks.steady
      rw [isRunning, staffed.permits, Permits.holds_ofLine, (staffed.take_eq full).1,
        staffed.held, List.mem_filter] at rests
      have ended : isDone events b = true := by
        by_contra going
        exact rests ⟨began, by simp [alive, going]⟩
      rw [isDone_concat, ended]
      simp
    · exact isDone_of_ne (by simpa using self) rfl

theorem Tracks.finish (tracks : Tracks workers events w marks) (a : α) :
    Tracks workers (events ++ [.finish a]) (w.finish a).1
      (marks ++ (w.finish a).2.map .happened) := by
  have aborted_ : isAborted (events ++ [.finish a]) = isAborted events :=
    funext fun b => isAborted_of_ne (by simp)
  have others (b : α) (other : b ≠ a) :
      isDone (events ++ [.finish a]) b = isDone events b :=
    isDone_of_ne (by simpa using other) rfl
  have same : spawned (events ++ [.finish a]) = spawned events := spawned_of_none rfl
  have time : elapsed (events ++ [.finish a]) = elapsed events := elapsed_of_still rfl
  unfold Workers.finish
  split
  case isTrue runs =>
    have came : a ∈ (spawned events).map (·.2) :=
      tracks.spawned_of_alive
        (List.mem_append_left _ (List.mem_append_left _ (of_decide_eq_true runs)))
    obtain ⟨delayed_, now_⟩ :=
      begin_frame (w.depart a).1.line (w.depart a).1 (w.depart a).2
    refine ⟨?_, ?_, ?_⟩
    · rw [time, ← tracks.now]
      exact now_
    · rw [same, time, aborted_, ← tracks.delayed]
      exact delayed_
    · rw [same, time, aborted_]
      exact tracks.steady.leaves rfl (fun _ => rfl) (fun b other => ⟨rfl, others b other⟩)
        (fun _ gone => gone) fun _ => .inr ⟨runs, isDone_finish came⟩
  case isFalse rests =>
    split
    case isTrue waits =>
      rw [List.map_nil, List.append_nil]
      refine tracks.finish_later rests _ fun b fresh alive => ?_
      by_cases self : b = a
      · have ended := isDone_finish (tracks.spawned_of_alive waits)
        exact ⟨fun _ => self ▸ ended, fun _ => self ▸ List.mem_cons_self⟩
      · rw [others b self, ← tracks.steady.mem_brief fresh alive, List.mem_cons]
        exact or_iff_right self
    case isFalse absent =>
      rw [List.map_nil, List.append_nil]
      refine tracks.finish_later rests w.brief fun b fresh alive => ?_
      rw [tracks.steady.mem_brief fresh alive]
      by_cases self : b = a
      · subst self
        have unknown : b ∉ (spawned events).map (·.2) := fun came =>
          absent (tracks.mem_alive came alive fresh)
        rw [isDone_concat, any_spawns, decide_eq_false unknown]
        simp [PoolEvent.spawnsBrief]
      · rw [others b self]

theorem Tracks.abort (tracks : Tracks workers events w marks) (a : α) :
    Tracks workers (events ++ [.abort a]) (w.abort a).1
      (marks ++ .aborted a :: (w.abort a).2.map .happened) := by
  have done_ : isDone (events ++ [.abort a]) = isDone events :=
    funext fun b => isDone_of_ne (by simp) rfl
  have others (b : α) (other : b ≠ a) : isAborted (events ++ [.abort a]) b = isAborted events b :=
    isAborted_of_ne (by simpa using other)
  have same : spawned (events ++ [.abort a]) = spawned events := spawned_of_none rfl
  have time : elapsed (events ++ [.abort a]) = elapsed events := elapsed_of_still rfl
  unfold Workers.abort
  dsimp only
  set left_ : Workers α := { w with delayed := w.delayed.filter fun d => d.2 ≠ a } with hleft
  obtain ⟨delayed_, now_⟩ :=
    begin_frame (left_.depart a).1.line (left_.depart a).1 (left_.depart a).2
  refine ⟨?_, ?_, ?_⟩
  · rw [now_, time, ← tracks.now]
    rfl
  · rw [delayed_, same, time]
    change w.delayed.filter (fun d => d.2 ≠ a) = _
    rw [tracks.delayed, List.filter_filter]
    apply List.filter_congr
    intro j listed
    by_cases self : j.2 = a
    · simp [self, isAborted_abort (List.mem_map.mpr ⟨j, listed, self⟩)]
    · simp [self, others j.2 self]
  · rw [same, time, done_]
    refine (tracks.steady.alter _ w.now).leaves rfl (fun _ => rfl)
      (fun b other => ⟨others b other, rfl⟩) (fun b gone => ?_)
      fun known => .inl (isAborted_abort ?_)
    · rw [isAborted_concat, gone, Bool.true_or]
    · rcases known with turn | ended
      · exact mem_names_of_turn turn
      · by_contra unknown
        rw [isDone_of_fresh unknown] at ended
        cases ended

theorem Tracks.advance (tracks : Tracks workers events w marks)
    (distinct : ((spawned events).map (·.2)).Nodup) (span : Nat) :
    Tracks workers (events ++ [.advance span]) (w.advance span).1
      (marks ++ (w.advance span).2.map .happened) := by
  have done_ : isDone (events ++ [.advance span]) = isDone events :=
    funext fun b => isDone_of_ne (by simp) rfl
  have aborted_ : isAborted (events ++ [.advance span]) = isAborted events :=
    funext fun b => isAborted_of_ne (by simp)
  have same : spawned (events ++ [.advance span]) = spawned events := spawned_of_none rfl
  have time : elapsed (events ++ [.advance span]) = elapsed events + span := elapsed_concat _ _
  have later : w.delayed <+ (spawned events).filter fun j => elapsed events < j.1 := by
    rw [tracks.delayed, ← List.filter_filter]
    exact List.filter_sublist
  have parts := inTurn_add (spawned events) (elapsed events) span
  have apart : (inTurn (spawned events) (elapsed events) ++ w.delayed.map (·.2)).Nodup := by
    have all := List.filter_append_perm (fun j : Nat × α => decide (j.1 ≤ elapsed events))
      (spawned events)
    simp only [← decide_not, Nat.not_le] at all
    have names := ((inTurn_perm (spawned events) (elapsed events)).append_right _).trans
      (List.map_append ▸ all.map Prod.snd)
    exact (names.nodup_iff.mpr distinct).sublist ((List.Sublist.refl _).append (later.map _))
  have alive : ∀ j ∈ w.delayed, isAborted events j.2 = false := by
    intro j listed
    rw [tracks.delayed, List.mem_filter] at listed
    grind
  have kept : w.delayed.filter (fun j => !isAborted events j.2) =
      ((spawned events).filter fun j => elapsed events < j.1).filter
        fun j => !isAborted events j.2 := by
    rw [List.filter_filter, ← tracks.delayed, List.filter_eq_self]
    intro j listed
    rw [alive j listed, Bool.not_false]
  have steady := tracks.steady.advanceTo (elapsed events + span) (Nat.lt_succ_self _) apart alive
  obtain ⟨now_, delayed_⟩ :=
    advanceTo_frame (w := w) (elapsed events + span) (Nat.lt_succ_self _)
  unfold Workers.advance
  rw [tracks.now]
  refine ⟨?_, ?_, ?_⟩
  · rw [now_, time]
  · rw [delayed_, same, time, aborted_, tracks.delayed, List.filter_filter]
    apply List.filter_congr
    intro j _
    have : elapsed events + span < j.1 → elapsed events < j.1 := by omega
    grind
  · rw [same, time, aborted_, done_]
    refine steady.widen (inTurn_nodup distinct _) ?_ ?_
    · rw [parts]
      exact (List.Sublist.refl _).append (inTurn_sublist later _)
    · rw [parts, List.filter_append, List.filter_append,
        filter_inTurn _ w.delayed, filter_inTurn _ (List.filter _ _), kept]

/-- One event after the other, the workers keep to the history. -/
theorem tracks_run (workers : Nat) (events : List (PoolEvent α))
    (distinct : ((spawned events).map (·.2)).Nodup) :
    Tracks workers events (run workers events).1 (run workers events).2 := by
  induction events using List.reverseRecOn with
  | nil =>
    refine ⟨rfl, rfl, [], [], ?_, fun waits => absurd rfl waits⟩
    refine ⟨?_, ?_, ?_, rfl, rfl, ?_, ?_, ?_, ?_⟩
    · exact (Permits.ofLine_nil _).symm
    all_goals simp [run, running, started, spawned, spawnedFrom, elapsed, inTurn, ofCount, isDone,
      happenedSince]
  | append_singleton events event ih =>
    have names := distinct
    rw [spawned_concat, List.map_append] at names
    have before := ih (List.nodup_append.mp names).1
    have fresh {due : Nat} {a : α} (comes : event.spawned? (elapsed events) = some (due, a)) :
        a ∉ (spawned events).map (·.2) := fun member =>
      List.disjoint_of_nodup_append names member (by simp [comes])
    rw [run_concat]
    cases event with
    | spawn a brief => exact before.spawn (fresh rfl) rfl rfl fun b => by cases brief <;> rfl
    | spawnAfter delay a brief => exact before.spawnAfter (fresh rfl)
    | finish a => exact before.finish a
    | abort a => exact before.abort a
    | advance span => exact before.advance (List.nodup_append.mp names).1 span

/-! ## The bound -/

/-- How the jobs share the workers. -/
structure Shared (workers : Nat) (events : List (PoolEvent α)) : Prop where
  /-- At no moment so far more jobs ran than there are workers. -/
  bound : ∀ past, past <+: (run workers events).2 → (running past).length ≤ max workers 1
  /-- The jobs that have a worker are those that started and were neither aborted nor done. -/
  holders : (run workers events).1.permits.holders = running (run workers events).2
  running : Workers.running (run workers events).2 =
    (started (run workers events).2).filter fun a => !isAborted events a && !isDone events a
  /-- A job waits only while all workers are busy. -/
  busy : (run workers events).1.permits.waiting ≠ [] →
    (run workers events).1.permits.holders.length = max workers 1
  /-- A job in its delay has no worker and does not wait for one. -/
  delayed : ∀ due a, (due, a) ∈ spawned events → elapsed events < due →
    a ∉ (run workers events).1.permits.holders ∧ a ∉ (run workers events).1.permits.waiting ∧
      a ∉ started (run workers events).2
  /-- The jobs start in the order in which they began to wait. -/
  ordered : started (run workers events).2 ++ (run workers events).1.permits.waiting <+
    inTurn (spawned events) (elapsed events)
  once : (started (run workers events).2).Nodup
  /-- Only the aborted ones are passed over. -/
  complete : ∀ due a, (due, a) ∈ spawned events → isAborted events a = true ∨
    a ∈ started (run workers events).2 ∨ a ∈ (run workers events).1.permits.waiting ∨
      (elapsed events < due ∧ (due, a) ∈ (run workers events).1.delayed)
  /-- All this holds at every moment, in whichever way time is divided. -/
  divided : ∀ span rest, run workers (events ++ [.advance (span + rest)]) =
    run workers (events ++ [.advance span, .advance rest])

omit [DecidableEq α] in
theorem eq_of_spawned (distinct : ((spawned events).map (·.2)).Nodup) {due due' : Nat}
    (first : (due, a) ∈ spawned events) (second : (due', a) ∈ spawned events) : due = due' :=
  congrArg Prod.fst (List.inj_on_of_nodup_map distinct first second rfl)

/-- Whatever the order of spawning, ending, aborting and waiting, the jobs share the workers. -/
theorem jobs_share_workers (workers : Nat) (events : List (PoolEvent α))
    (distinct : ((spawned events).map (·.2)).Nodup) : Shared workers events := by
  have tracks := tracks_run workers events distinct
  obtain ⟨busy, waiting, staffed, full⟩ := tracks.steady
  obtain ⟨front, back⟩ := staffed.take_eq full
  have holders_ : (run workers events).1.permits.holders = busy := by
    rw [staffed.permits, Permits.ofLine_holders, front]
  have waiting_ : (run workers events).1.permits.waiting = waiting := by
    rw [staffed.permits, Permits.ofLine_waiting, back]
  refine ⟨staffed.bound, ?_, ?_, ?_, ?_, ?_, ?_, ?_, ?_⟩
  · rw [holders_, staffed.engaged]
  · rw [staffed.engaged]
    exact staffed.held
  · rw [waiting_, holders_]
    exact full
  · intro due a listed later
    have absent : a ∉ started (run workers events).2 ++ waiting := by
      intro there
      obtain ⟨due', within, again⟩ := mem_inTurn.mp (staffed.ordered.subset there)
      have same := eq_of_spawned distinct listed again
      omega
    rw [List.mem_append, not_or] at absent
    rw [holders_, waiting_]
    exact ⟨fun runs => absent.1 (staffed.has_started runs), absent.2, absent.1⟩
  · rw [waiting_]
    exact staffed.ordered
  · exact staffed.nodup.of_append_left
  · intro due a listed
    by_cases gone : isAborted events a = true
    · exact .inl gone
    · right
      rcases Nat.lt_or_ge (elapsed events) due with later | now
      · refine .inr (.inr ⟨later, ?_⟩)
        rw [tracks.delayed, List.mem_filter]
        exact ⟨listed, by simp [gone, later]⟩
      · have turn : a ∈ (inTurn (spawned events) (elapsed events)).filter
            fun a => !isAborted events a :=
          List.mem_filter.mpr ⟨mem_inTurn.mpr ⟨due, now, listed⟩, by simp [gone]⟩
        rw [← staffed.complete, List.mem_filter, List.mem_append] at turn
        rw [waiting_]
        exact turn.1.imp_right .inl
  · intro span rest
    rw [show events ++ [.advance span, .advance rest] =
      (events ++ [.advance span]) ++ [.advance rest] by simp, run_concat, run_concat, run_concat]
    simp only [step, step.heard, advance_add, List.map_append, List.append_assoc]

/-- A job runs on the only worker while others come after their delays, two of them at one time. One
is aborted in its delay and one while it waits; the first that waits is a brief one. -/
def rush : List (PoolEvent Nat) :=
  [.spawn 0 false, .spawnAfter 5 1 false, .spawnAfter 3 2 true, .spawnAfter 3 3 false,
    .spawnAfter 4 4 false, .spawnAfter 9 5 false, .abort 5, .advance 4, .spawn 6 true, .abort 3,
    .advance 1, .finish 0]

theorem jobs_share_workers_in_rush :
    ((spawned rush).map (·.2)).Nodup ∧ Shared 0 rush ∧
      (run 0 rush).1.permits = ⟨1, [4], [6, 1]⟩ ∧ started (run 0 rush).2 = [0, 2, 4] ∧
      inTurn (spawned rush) (elapsed rush) = [0, 2, 3, 4, 6, 1] :=
  ⟨by decide, jobs_share_workers 0 rush (by decide), by decide, by decide, by decide⟩

end Workers

end Outbox
