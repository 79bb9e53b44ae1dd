import Outbox.Proofs.Arrivals
import Outbox.Proofs.Turns

/-! # What a task still has to deal with

A task deals with some deliveries to one endpoint, or will replay an endpoint once it begins. When
it goes on it deals with the same deliveries, apart from those that are not in the queue any more,
or it leaves them in the queue and tells so of one of them.
-/

namespace Outbox

namespace Pending

/-- The deliveries are the same, apart from the attempts. -/
def Same (x y : Pending) : Prop := x.endpoint = y.endpoint ∧ x.id = y.id

end Pending

/-- All of these deliveries go to one endpoint. -/
def OneHome (ps : List Pending) : Prop := ∀ x ∈ ps, ∀ y ∈ ps, x.endpoint = y.endpoint

/-- A job that sends whatever is in the queue for the endpoint. -/
def Job.Serves (e : Endpoint) : Job → Prop
  | flush => True
  | replay f | replayAt f _ => f = e
  | _ => False

namespace Stage

/-- The task waits for a time. -/
def isSleeping : Stage → Bool
  | sleeping _ _ => true
  | _ => false

/-- The deliveries that a task has yet to deal with. -/
def minds : Stage → List Pending
  | worked (.removed _ _ purpose) => purpose.rest
  | stage => stage.view.pendings

/-- The task will deal with the delivery. -/
def CaresFor (stage : Stage) (p : Pending) : Prop :=
  (∃ y ∈ stage.minds, y.Same p) ∨ ∃ job, stage.job? = some job ∧ job.Serves p.endpoint

/-- Only planned replays wait for a time, nobody looks for old snapshots, and a task deals with
one endpoint at a time. -/
structure Regular (stage : Stage) : Prop where
  sleeper : ∀ time job, stage = .sleeping time job → ∃ e due, job = .replayAt e due
  job : stage.job? ≠ some .resurrect
  files : stage ≠ .working .resurrect
  home : OneHome stage.minds

variable {a b stage : Stage}

theorem Near.minds (near : Near a b) : b.minds = a.minds := by
  cases near <;> rfl

theorem Near.caresFor {p : Pending} (near : Near a b) (cares : a.CaresFor p) : b.CaresFor p := by
  unfold CaresFor
  rw [near.minds, near.job?]
  exact cares

theorem Near.regular (near : Near a b) (regular : a.Regular) : b.Regular := by
  refine ⟨?_, near.job? ▸ regular.job, ?_, near.minds ▸ regular.home⟩
  · rintro time job rfl
    cases near
    exact regular.sleeper time job rfl
  · rintro rfl
    cases near
    exact regular.files rfl

theorem Young.regular (young : Young stage) : stage.Regular := by
  cases young <;> refine ⟨?_, nofun, nofun, fun x member => absurd member List.not_mem_nil⟩
  · rintro time job ⟨⟩
    exact ⟨_, _, rfl⟩
  · rintro time job ⟨⟩
  · rintro time job ⟨⟩

end Stage

/-! ## One step of a task -/

/-- What becomes of the deliveries `ps` that a task has to deal with, when it goes on: it still has
to, or they are left in the queue and that is told of one to the same endpoint. -/
structure Follows (q : Queue) (ps : List Pending) (held : List (Pending × QueueReason))
    (stage : Stage) : Prop where
  job : stage.job? = none
  files : stage ≠ .working .resurrect
  minds : ∀ x ∈ stage.minds, ∃ y ∈ ps, y.endpoint = x.endpoint
  keeps : ∀ x ∈ ps, q.Has x.endpoint x.id →
    (∃ y ∈ stage.minds, y.Same x) ∨ ∃ h ∈ held, ∃ y ∈ ps, y.endpoint = h.1.endpoint

variable {s : Service} {q : Queue} {p : Pending} {ps : List Pending} {purpose : Purpose}
  {held : List (Pending × QueueReason)} {old stage : Stage} {e : Endpoint}

/-- A stage with nothing to deal with follows on one with nothing to deal with. -/
theorem Follows.nothing (job : stage.job? = none) (files : stage ≠ .working .resurrect)
    (minds : stage.minds = []) : Follows q [] held stage :=
  ⟨job, files, by simp [minds], by simp⟩

/-- A stage with the same deliveries to deal with. -/
theorem Follows.same (job : stage.job? = none) (files : stage ≠ .working .resurrect)
    (minds : stage.minds = ps) : Follows q ps held stage :=
  ⟨job, files, fun x member => ⟨x, minds ▸ member, rfl⟩,
    fun x member _ => .inl ⟨x, minds ▸ member, rfl, rfl⟩⟩

/-- A task that left a delivery in the queue has ended. -/
theorem Follows.ended {reason : QueueReason} {h : Pending} (home : p.endpoint = h.endpoint)
    (concludes : Concludes (.queued reason) purpose [] stage) :
    Follows q (p :: purpose.rest) [(h, reason)] stage := by
  cases concludes with
  | queued =>
    refine ⟨rfl, nofun, fun x member => absurd member List.not_mem_nil, fun x _ _ => .inr ?_⟩
    exact ⟨_, List.mem_singleton_self _, p, List.mem_cons_self, home⟩
  | sent other | handled other | replays other => exact absurd rfl (other reason)
  | discards terminal => cases terminal

theorem Tries.follows (tries : Tries p purpose held stage) :
    Follows q (p :: purpose.rest) held stage := by
  cases tries with
  | held reason => exact .ended rfl (.queued reason purpose)
  | waits => exact .same rfl nofun rfl
  | enters => exact .same rfl nofun rfl

theorem Replays.follows {n : Nat} (replays : Replays e n ps held stage) :
    Follows q ps held stage := by
  cases replays with
  | done => exact .nothing rfl nofun rfl
  | givesUp p rest => exact .same rfl nofun rfl
  | tries tries => exact tries.follows

theorem Concludes.follows {outcome : SendOutcome} (concludes : Concludes outcome purpose held stage)
    (other : ∀ reason, outcome ≠ .queued reason) : Follows q purpose.rest held stage := by
  cases concludes with
  | queued reason => exact absurd rfl (other reason)
  | sent => exact .nothing rfl nofun rfl
  | discards => exact .nothing rfl nofun rfl
  | handled => exact .nothing rfl nofun rfl
  | replays _ replays => exact replays.follows

/-- What is not in the queue needs no care. -/
theorem Follows.skip (follows : Follows q ps held stage) (missing : ¬q.Has p.endpoint p.id) :
    Follows q (p :: ps) held stage where
  job := follows.job
  files := follows.files
  minds x member := by
    obtain ⟨y, there, home⟩ := follows.minds x member
    exact ⟨y, List.mem_cons_of_mem _ there, home⟩
  keeps x member has := by
    rcases List.mem_cons.mp member with rfl | later
    · exact absurd has missing
    · refine (follows.keeps x later has).imp_right fun ⟨h, told, y, there, home⟩ => ?_
      exact ⟨h, told, y, List.mem_cons_of_mem _ there, home⟩

/-- A step of a task either leaves all as it was, or there are deliveries to one endpoint that it
had to deal with, and what follows is about these. -/
inductive Leads.Cares (s : Service) (old : Stage) (held : List (Pending × QueueReason))
    (stage : Stage) : Prop where
  | same (job : stage.job? = old.job?) (minds : stage.minds = old.minds) (none_ : held = [])
      (asleep : ∀ time job, stage = .sleeping time job → stage = old)
      (files : stage = .working .resurrect → stage = old)
  | follows {ps : List Pending} (home : OneHome ps) (follows : Follows s.queue ps held stage)
      (begun : ∀ job, old.job? = some job → old = .starting job)
      (all : ∀ p, s.queue.Holds p → old.CaresFor p →
        (∃ y ∈ ps, y.Same p) ∨ old = .starting .flush)

theorem Ending.outcome_ne_queued (ending : Ending) (reason : QueueReason) :
    ending.outcome ≠ .queued reason := by
  cases ending <;> nofun

/-- A stage that has no job cares for what it minds. -/
theorem Stage.CaresFor.minded (cares : old.CaresFor p) (job : old.job? = none) :
    ∃ y ∈ old.minds, y.Same p := by
  rcases cares with minded | ⟨_, begun, _⟩
  · exact minded
  · rw [job] at begun
    cases begun

theorem oneHome_singleton (p : Pending) : OneHome [p] := by
  simp [OneHome]

theorem oneHome_nil : OneHome [] := fun _ member => absurd member List.not_mem_nil

/-- A stage without a job is followed with what it minds. -/
theorem Leads.Cares.idle (regular : old.Regular) (job : old.job? = none) (minds : old.minds = ps)
    (follows : Follows s.queue ps held stage) : Leads.Cares s old held stage :=
  .follows (minds ▸ regular.home) follows (by simp [job])
    fun p _ cares => .inl (minds ▸ cares.minded job)

/-- A job that starts is followed with the deliveries it cares for. -/
theorem Leads.Cares.starts {job : Job} (home : OneHome ps)
    (all : ∀ p, s.queue.Holds p → Stage.CaresFor (.starting job) p →
      (∃ y ∈ ps, y.Same p) ∨ job = .flush)
    (follows : Follows s.queue ps held stage) : Leads.Cares s (.starting job) held stage := by
  refine .follows home follows ?_ fun p there cares => (all p there cares).imp_right ?_
  · rintro other ⟨⟩
    rfl
  · rintro rfl
    rfl

/-- A job that starts cares for no delivery, unless it is a flush. -/
theorem Leads.Cares.nothing {job : Job} (none_ : job.pendings = [])
    (serves : ∀ e, job.Serves e → job = .flush) (follows : Follows s.queue [] held stage) :
    Leads.Cares s (.starting job) held stage := by
  refine .starts oneHome_nil (fun p _ cares => .inr ?_) follows
  rcases cares with ⟨y, member, _⟩ | ⟨_, found, serve⟩
  · rw [show (Stage.starting job).minds = job.pendings from rfl, none_] at member
    cases member
  · cases found
    exact serves _ serve

theorem Leads.cares (tidy : s.queue.Tidy) (regular : old.Regular) (leads : Leads s old held stage) :
    Leads.Cares s old held stage := by
  cases leads with
  | stays => exact .same rfl rfl rfl (fun _ _ _ => rfl) fun _ => rfl
  | asks job => exact .same rfl rfl rfl (by rintro _ _ ⟨⟩) nofun
  | sits job => exact .same rfl rfl rfl (by rintro _ _ ⟨⟩) nofun
  | rejects e payload => exact .nothing rfl nofun (.nothing rfl nofun rfl)
  | enqueues e payload => exact .nothing rfl nofun (.nothing rfl nofun rfl)
  | persists e type => exact .nothing rfl nofun (.nothing rfl nofun rfl)
  | caches e type => exact .nothing rfl nofun (.nothing rfl nofun rfl)
  | ignores e type => exact .nothing rfl nofun (.nothing rfl nofun rfl)
  | @triesFinal e p durable _ _ tries =>
    refine .starts (oneHome_singleton p) (fun x _ cares => .inl ?_) tries.follows
    rcases cares with minded | ⟨_, found, serves⟩
    · exact minded
    · cases found
      cases serves
  | flushes => exact .nothing rfl (fun _ _ => rfl) (.nothing rfl nofun rfl)
  | flushesNone => exact .nothing rfl (fun _ _ => rfl) (.nothing rfl nofun rfl)
  | @replays e job due _ _ replays =>
    have home : OneHome (s.queue.pending e) := fun x member y member' =>
      (tidy.holds_of_mem member).2.trans (tidy.holds_of_mem member').2.symm
    refine .starts home (fun p there cares => .inl ?_) replays.follows
    have same : e = p.endpoint := by
      rcases cares with ⟨y, member, _⟩ | ⟨_, found, serves⟩
      · rcases due with rfl | ⟨time, rfl⟩ <;> cases member
      · cases found
        rcases due with rfl | ⟨time, rfl⟩ <;> exact serves
    exact ⟨p, same ▸ there, rfl, rfl⟩
  | fetches e etag => exact .nothing rfl nofun (.nothing rfl nofun rfl)
  | fetchesNone e etag outcome => exact .nothing rfl nofun (.nothing rfl nofun rfl)
  | resurrects => exact absurd rfl regular.job
  | triesEnqueued tries => exact .idle regular rfl rfl tries.follows
  | triesPersisted tries => exact .idle regular rfl rfl tries.follows
  | cached => exact .idle regular rfl rfl (.nothing rfl nofun rfl)
  | discarded outcome => exact .idle regular rfl rfl (.nothing rfl nofun rfl)
  | resurrected n => exact .idle regular rfl rfl (.nothing rfl nofun rfl)
  | @ends p ending purpose _ _ concludes =>
    exact .idle regular rfl rfl (concludes.follows ending.outcome_ne_queued)
  | ceiling p time purpose => exact .idle regular rfl rfl (.same rfl nofun rfl)
  | retries concludes => exact .idle regular rfl rfl (.ended rfl concludes)
  | @skips p purpose missing _ _ concludes =>
    have absent : ¬s.queue.Has p.endpoint p.id :=
      tidy.contains_iff.not.mp (Bool.eq_false_iff.mp (Queue.contains_of_missing missing))
    exact .idle regular rfl rfl ((concludes.follows nofun).skip absent)
  | @holds p current purpose found reason _ concludes =>
    exact .idle regular rfl rfl (.ended (tidy.get?_eq_some_iff.mp found).1.symm concludes)
  | @posts p current purpose found =>
    obtain ⟨home, name, _⟩ := tidy.get?_eq_some_iff.mp found
    refine .idle regular rfl rfl ⟨rfl, nofun, fun x member => ?_, fun x member _ => .inl ?_⟩
    · rcases List.mem_cons.mp member with rfl | later
      · exact ⟨p, List.mem_cons_self, home.symm⟩
      · exact ⟨x, List.mem_cons_of_mem _ later, rfl⟩
    · rcases List.mem_cons.mp member with rfl | later
      · exact ⟨current, List.mem_cons_self, home, name⟩
      · exact ⟨x, List.mem_cons_of_mem _ later, rfl, rfl⟩
  | accepts p a purpose => exact .idle regular rfl rfl (.same rfl nofun rfl)
  | limited concludes => exact .idle regular rfl rfl (.ended rfl concludes)
  | refuses p a purpose reason => exact .idle regular rfl rfl (.same rfl nofun rfl)
  | counts p a purpose time => exact .idle regular rfl rfl (.same rfl nofun rfl)
  | learns e a outcome => exact .idle regular rfl rfl (.nothing rfl nofun rfl)
  | joined delivered => exact .idle regular rfl rfl (.nothing rfl nofun rfl)

end Outbox
