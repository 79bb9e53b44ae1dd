import Outbox.Proofs.Turns

/-! # Who has a worker, and who waits for whom

For the workers it only matters of a task whether it needs one, how far it is, and which task waits
for it. A task that waits for a worker does so because all workers are taken, and who has one is
under way. A task that waits for others waits for tasks that have not ended.
-/

namespace Outbox

/-- How far a task is. -/
inductive Standing where
  /-- It has yet to ask for a worker. -/
  | early
  /-- It waits for a worker. -/
  | queued
  | busy
  /-- It waits for so many others. -/
  | joins (left : Nat)
  | ended (result : Result)
  deriving Repr, DecidableEq

namespace Standing

def isEnded : Standing → Bool
  | ended _ => true
  | _ => false

/-- For how many others the task waits. -/
def awaits : Standing → Nat
  | joins left => left
  | _ => 0

/-- The task is under way. -/
def isAboard : Standing → Bool
  | busy | joins _ => true
  | _ => false

end Standing

def Stage.standing : Stage → Standing
  | sleeping _ _ | spawned _ => .early
  | atWorkers _ => .queued
  | joining left _ => .joins left
  | finished result => .ended result
  | _ => .busy

/-- What matters of a task for the workers. -/
structure Member where
  pooled : Bool
  parent : Option Nat
  standing : Standing
  deriving Repr, DecidableEq

def Task.member (t : Task) : Member := ⟨t.pooled, t.parent, t.stage.standing⟩

/-- The workers, and what matters of the tasks for them. -/
structure Crew where
  workers : Permits Nat
  members : List Member
  deriving Repr, DecidableEq

def Service.crew (s : Service) : Crew := ⟨s.workers, s.tasks.map Task.member⟩

namespace Crew

def put (c : Crew) (id : Nat) (standing : Standing) : Crew :=
  { c with members := c.members.modify id fun m => { m with standing } }

def standing? (c : Crew) (id : Nat) : Option Standing := c.members[id]?.map (·.standing)

/-- Lets the tasks begin that were given a worker. -/
def seat (c : Crew) (granted : List Nat) : Crew :=
  granted.foldl (fun c id => if c.standing? id = some .queued then c.put id .busy else c) c

/-- Gives out workers while there are some left and a task waits. -/
def grant (c : Crew) : Crew :=
  ({ c with workers := c.workers.grant.1 } : Crew).seat c.workers.grant.2

/-- A task asks for a worker. -/
def ask (c : Crew) (id : Nat) : Crew :=
  { c.put id .queued with workers.waiting := c.workers.waiting ++ [id] }.grant

/-- A task gives back its worker. -/
def leave (c : Crew) (id : Nat) : Crew :=
  { c with workers.holders := c.workers.holders.erase id
           workers.waiting := c.workers.waiting.erase id }.grant

/-- Tells a waiting task that one of the tasks it waits for has ended. -/
def tell (c : Crew) (parent : Nat) (result : Result) : Crew :=
  match c.standing? parent, result with
  | some (.joins left), .count _ => c.put parent (.joins (left - 1))
  | _, _ => c

def finish (c : Crew) (id : Nat) (result : Result) : Crew :=
  match c.members[id]? with
  | none => c
  | some m =>
    let c := c.put id (.ended result)
    let c := if m.pooled then c.leave id else c
    match m.parent with
    | some parent => c.tell parent result
    | none => c

/-- A task starts so many others and waits for them. -/
def fork (c : Crew) (id n : Nat) : Crew :=
  { c.put id (.joins n) with
    members := (c.put id (.joins n)).members ++ List.replicate n ⟨false, some id, .busy⟩ }

/-- How many tasks that this one waits for have not ended. -/
def children (c : Crew) (id : Nat) : Nat :=
  c.members.countP fun m => m.parent == some id && !m.standing.isEnded

variable {c d : Crew} {id j : Nat} {m : Member} {st : Standing} {result : Result}

/-! ## Members -/

theorem getElem?_put (c : Crew) (id j : Nat) (st : Standing) :
    (c.put id st).members[j]? =
      c.members[j]?.map fun m => if j = id then { m with standing := st } else m := by
  simp only [put, List.getElem?_modify]
  by_cases same : id = j
  · simp [same]
  · simp [same, Ne.symm same]

theorem put_of_standing (at_ : c.standing? id = some st) : c.put id st = c := by
  obtain ⟨m, found, rfl⟩ := Option.map_eq_some_iff.mp at_
  have same : (c.put id m.standing).members = c.members := by
    apply List.ext_getElem?
    intro j
    rw [getElem?_put]
    by_cases self : j = id
    · simp [self, found]
    · simp [self]
  exact congrArg (Crew.mk c.workers) same

theorem getElem?_seat (c : Crew) (granted : List Nat) (j : Nat) :
    (c.seat granted).members[j]? = c.members[j]?.map fun m =>
      if j ∈ granted ∧ m.standing = .queued then { m with standing := .busy } else m := by
  induction granted generalizing c with
  | nil => simp [seat]
  | cons g gs ih =>
    rw [seat, List.foldl_cons]
    refine (ih _).trans ?_
    cases found : c.members[j]? with
    | none => split <;> simp [getElem?_put, found]
    | some m =>
      by_cases self : j = g
      · subst self
        by_cases queued : m.standing = .queued <;>
          simp [standing?, found, queued, getElem?_put]
      · split <;> simp [getElem?_put, found, self]

theorem seat_workers (c : Crew) (granted : List Nat) : (c.seat granted).workers = c.workers := by
  induction granted generalizing c with
  | nil => rfl
  | cons g gs ih =>
    rw [seat, List.foldl_cons]
    refine (ih _).trans ?_
    split <;> rfl

theorem countP_modify {α : Type} (p : α → Bool) (f : α → α) {l : List α} {i : Nat} {a : α}
    (at_ : l[i]? = some a) :
    (l.modify i f).countP p + (if p a then 1 else 0) =
      l.countP p + (if p (f a) then 1 else 0) := by
  induction l generalizing i with
  | nil => simp at at_
  | cons b l ih =>
    cases i with
    | zero =>
      obtain rfl : b = a := by simpa using at_
      simp only [List.modify_zero_cons, List.countP_cons]
      omega
    | succ i =>
      have tail := ih (i := i) (by simpa using at_)
      simp only [List.modify_succ_cons, List.countP_cons]
      omega

/-- How the number of the tasks that one waits for changes with another one. -/
theorem children_put (at_ : c.members[j]? = some m) (id : Nat) (st : Standing) :
    (c.put j st).children id + (if m.parent = some id ∧ m.standing.isEnded = false then 1 else 0) =
      c.children id + (if m.parent = some id ∧ st.isEnded = false then 1 else 0) := by
  simpa [children, put] using
    countP_modify (fun m : Member => m.parent == some id && !m.standing.isEnded)
      (fun m => { m with standing := st }) at_

theorem children_put_same (at_ : c.standing? j = some st) (st' : Standing)
    (same : st'.isEnded = st.isEnded) (id : Nat) : (c.put j st').children id = c.children id := by
  obtain ⟨m, found, rfl⟩ := Option.map_eq_some_iff.mp at_
  have changed := children_put found id st'
  rw [same] at changed
  omega

theorem children_seat (c : Crew) (granted : List Nat) (id : Nat) :
    (c.seat granted).children id = c.children id := by
  induction granted generalizing c with
  | nil => rfl
  | cons g gs ih =>
    rw [seat, List.foldl_cons]
    refine (ih _).trans ?_
    split
    case isTrue queued => exact children_put_same queued .busy rfl id
    case isFalse => rfl

/-- A task waits for one that has not ended. -/
theorem exists_child (some_ : 0 < c.children id) :
    ∃ (j : Nat) (m : Member),
      c.members[j]? = some m ∧ m.parent = some id ∧ m.standing.isEnded = false := by
  obtain ⟨m, member, counted⟩ := List.countP_pos_iff.mp some_
  obtain ⟨j, found⟩ := List.mem_iff_getElem?.mp member
  refine ⟨j, m, found, ?_⟩
  simpa using counted

/-! ## Growth -/

/-- From `c` to `d` some tasks were added for which no other one waits, and that have yet to ask for
a worker or need none. -/
def Grown (c d : Crew) : Prop :=
  d.workers = c.workers ∧ ∃ new, d.members = c.members ++ new ∧
    ∀ m ∈ new, m.parent = none ∧ (m = ⟨true, none, .early⟩ ∨ m = ⟨false, none, .busy⟩)

theorem Grown.refl (c : Crew) : c.Grown c := ⟨rfl, [], by simp, by simp⟩

theorem Grown.trans {e : Crew} (first : c.Grown d) (second : d.Grown e) : c.Grown e := by
  obtain ⟨workers, new, members, orphans⟩ := first
  obtain ⟨workers', new', members', orphans'⟩ := second
  refine ⟨workers'.trans workers, new ++ new', by rw [members', members, List.append_assoc], ?_⟩
  intro m member
  rcases List.mem_append.mp member with old | late
  · exact orphans m old
  · exact orphans' m late

theorem Grown.getElem? (grown : c.Grown d) (at_ : c.members[j]? = some m) :
    d.members[j]? = some m := by
  obtain ⟨_, new, members, _⟩ := grown
  obtain ⟨inside, _⟩ := List.getElem?_eq_some_iff.mp at_
  rw [members, List.getElem?_append_left inside, at_]

theorem Grown.standing? (grown : c.Grown d) (at_ : c.standing? j = some st) :
    d.standing? j = some st := by
  obtain ⟨m, found, rfl⟩ := Option.map_eq_some_iff.mp at_
  rw [Crew.standing?, grown.getElem? found, Option.map_some]

/-- A member is an old one or one of those that were added. -/
theorem Grown.member (grown : c.Grown d) (at_ : d.members[j]? = some m) :
    c.members[j]? = some m ∨ m = ⟨true, none, .early⟩ ∨ m = ⟨false, none, .busy⟩ := by
  obtain ⟨_, new, members, orphans⟩ := grown
  rw [members, List.getElem?_append] at at_
  split at at_
  · exact .inl at_
  · exact .inr (orphans m (List.mem_of_getElem? at_)).2

theorem Grown.children (grown : c.Grown d) (id : Nat) : d.children id = c.children id := by
  obtain ⟨_, new, members, orphans⟩ := grown
  have none_ : new.countP (fun m => m.parent == some id && !m.standing.isEnded) = 0 := by
    rw [List.countP_eq_zero]
    intro m member
    simp [(orphans m member).1]
  rw [Crew.children, Crew.children, members, List.countP_append, none_, Nat.add_zero]

/-! ## Workers -/

/-- The workers and the tasks agree on who has a worker and who waits for one. -/
structure Manned (c : Crew) : Prop where
  some_ : 1 ≤ c.workers.capacity
  distinct : (c.workers.holders ++ c.workers.waiting).Nodup
  queued_iff : ∀ id, id ∈ c.workers.waiting ↔ c.standing? id = some .queued
  aboard : ∀ id ∈ c.workers.holders,
    ∃ m, c.members[id]? = some m ∧ m.pooled = true ∧ m.standing.isAboard = true
  pooled : ∀ m ∈ c.members, m.standing = .early ∨ m.standing = .queued → m.pooled = true

/-- And nobody waits while there is a worker left. -/
structure Staffed (c : Crew) : Prop extends Manned c where
  full : c.workers.waiting ≠ [] → c.workers.capacity ≤ c.workers.holders.length

theorem standing?_of_getElem? (at_ : c.members[id]? = some m) :
    c.standing? id = some m.standing := by
  rw [standing?, at_, Option.map_some]

theorem Manned.pooled_of_queued (manned : c.Manned) (at_ : c.standing? id = some .queued) :
    ∃ m, c.members[id]? = some m ∧ m.pooled = true ∧ m.standing = .queued := by
  obtain ⟨m, found, queued⟩ := Option.map_eq_some_iff.mp at_
  exact ⟨m, found, manned.pooled m (List.mem_of_getElem? found) (.inr queued), queued⟩

/-- Once all workers are given out that can be, nobody waits for one that is left. -/
theorem Manned.grant (manned : c.Manned) : c.grant.Staffed := by
  let free := c.workers.capacity - c.workers.holders.length
  let granted := c.workers.waiting.take free
  have given : c.workers.grant =
      (⟨c.workers.capacity, c.workers.holders ++ granted, c.workers.waiting.drop free⟩, granted) :=
    rfl
  have workers : c.grant.workers =
      ⟨c.workers.capacity, c.workers.holders ++ granted, c.workers.waiting.drop free⟩ :=
    (seat_workers _ _).trans (by rw [given])
  have members (j : Nat) : c.grant.members[j]? = c.members[j]?.map fun m =>
      if j ∈ granted ∧ m.standing = .queued then { m with standing := .busy } else m :=
    getElem?_seat _ _ j
  have split : granted ++ c.workers.waiting.drop free = c.workers.waiting :=
    List.take_append_drop free _
  have waits {j : Nat} (member : j ∈ granted) : j ∈ c.workers.waiting :=
    List.mem_of_mem_take member
  refine ⟨⟨?_, ?_, ?_, ?_, ?_⟩, ?_⟩
  · rw [workers]
    exact manned.some_
  · rw [workers, List.append_assoc, split]
    exact manned.distinct
  · intro j
    rw [workers, standing?, members]
    have line : j ∈ c.workers.waiting ↔ j ∈ granted ∨ j ∈ c.workers.waiting.drop free := by
      rw [← List.mem_append, split]
    have apart : j ∈ granted → j ∉ c.workers.waiting.drop free := by
      have distinct := (List.nodup_append.mp manned.distinct).2.1
      rw [← split] at distinct
      exact fun first second => (List.nodup_append.mp distinct).2.2 j first j second rfl
    have queued := manned.queued_iff j
    rw [standing?] at queued
    cases found : c.members[j]? with
    | none =>
      rw [found] at queued
      have outside : j ∉ c.workers.waiting := by simpa using queued
      have away : j ∉ c.workers.waiting.drop free := fun member =>
        outside (line.mpr (.inr member))
      simpa using away
    | some m =>
      rw [found] at queued
      by_cases first : j ∈ granted
      · have standing : m.standing = .queued := by simpa using queued.mp (waits first)
        simp [first, standing, apart first]
      · have same : j ∈ c.workers.waiting.drop free ↔ j ∈ c.workers.waiting := by
          simp [line, first]
        simpa [first] using same.trans queued
  · intro j member
    rw [workers] at member
    rcases List.mem_append.mp member with old | new
    · obtain ⟨m, found, pooled, aboard⟩ := manned.aboard j old
      have other : m.standing ≠ .queued := by
        intro queued
        rw [queued] at aboard
        cases aboard
      exact ⟨m, by simp [members, found, other], pooled, aboard⟩
    · obtain ⟨m, found, pooled, queued⟩ :=
        manned.pooled_of_queued ((manned.queued_iff j).mp (waits new))
      exact ⟨{ m with standing := .busy }, by simp [members, found, new, queued], pooled, rfl⟩
  · intro m member early
    obtain ⟨j, found⟩ := List.mem_iff_getElem?.mp member
    rw [members] at found
    obtain ⟨old, found', rfl⟩ := Option.map_eq_some_iff.mp found
    split at early
    case isTrue => simp at early
    case isFalse other =>
      rw [if_neg other]
      exact manned.pooled old (List.mem_of_getElem? found') early
  · rw [workers]
    intro line
    have long : free < c.workers.waiting.length := by
      by_contra short
      exact line (List.drop_eq_nil_of_le (by omega))
    have size : granted.length = free := by
      simp only [granted, List.length_take]
      omega
    simp only [List.length_append, size]
    omega

theorem Staffed.grown (staffed : c.Staffed) (grown : c.Grown d) : d.Staffed := by
  have workers := grown.1
  have others (j : Nat) : d.standing? j = some .queued ↔ c.standing? j = some .queued := by
    refine ⟨fun at_ => ?_, grown.standing?⟩
    obtain ⟨m, found, queued⟩ := Option.map_eq_some_iff.mp at_
    rcases grown.member found with old | rfl | rfl
    · rw [standing?, old, Option.map_some, queued]
    · cases queued
    · cases queued
  refine ⟨⟨?_, ?_, ?_, ?_, ?_⟩, ?_⟩
  · rw [workers]
    exact staffed.some_
  · rw [workers]
    exact staffed.distinct
  · intro j
    rw [workers, others]
    exact staffed.queued_iff j
  · rw [workers]
    intro j member
    obtain ⟨m, found, rest⟩ := staffed.aboard j member
    exact ⟨m, grown.getElem? found, rest⟩
  · intro m member early
    obtain ⟨j, found⟩ := List.mem_iff_getElem?.mp member
    rcases grown.member found with old | rfl | rfl
    · exact staffed.pooled m (List.mem_of_getElem? old) early
    · rfl
    · simp at early
  · rw [workers]
    exact staffed.full

/-- A task that is not in the line and has no worker changes its standing, to one for which it needs
none. -/
theorem Manned.put (manned : c.Manned) (apart : id ∉ c.workers.holders ∨ st.isAboard = true)
    (old : c.standing? id ≠ some .queued) (new : st ≠ .early ∧ st ≠ .queued) :
    (c.put id st).Manned := by
  have standing (j : Nat) : (c.put id st).standing? j = some .queued ↔
      c.standing? j = some .queued := by
    rw [standing?, getElem?_put]
    by_cases self : j = id
    · subst self
      rw [standing?] at old
      cases found : c.members[j]? with
      | none => simp [standing?, found]
      | some m =>
        rw [found] at old
        simp [standing?, found, new.2] at old ⊢
        exact old
    · simp [self, standing?]
  refine ⟨manned.some_, manned.distinct, ?_, ?_, ?_⟩
  · intro j
    rw [standing]
    exact manned.queued_iff j
  · intro j member
    obtain ⟨m, found, pooled, aboard⟩ := manned.aboard j member
    by_cases self : j = id
    · subst self
      rcases apart with outside | still
      · exact absurd member outside
      · exact ⟨{ m with standing := st }, by simp [getElem?_put, found], pooled, still⟩
    · exact ⟨m, by simp [getElem?_put, found, self], pooled, aboard⟩
  · intro m member early
    obtain ⟨j, found⟩ := List.mem_iff_getElem?.mp member
    rw [getElem?_put] at found
    obtain ⟨old, found', rfl⟩ := Option.map_eq_some_iff.mp found
    split at early
    case isTrue => simp [new] at early
    case isFalse other =>
      rw [if_neg other]
      exact manned.pooled old (List.mem_of_getElem? found') early

theorem Staffed.ask (staffed : c.Staffed) (early : c.standing? id = some .early) :
    (c.ask id).Staffed := by
  have outside : id ∉ c.workers.holders := by
    intro member
    obtain ⟨m, found, _, aboard⟩ := staffed.aboard id member
    rw [standing?_of_getElem? found, Option.some.injEq] at early
    simp [early, Standing.isAboard] at aboard
  have apart : id ∉ c.workers.waiting := by
    rw [staffed.queued_iff, early]
    simp
  have standing (j : Nat) : (c.put id .queued).standing? j = some .queued ↔
      j = id ∨ c.standing? j = some .queued := by
    obtain ⟨m, found, _⟩ := Option.map_eq_some_iff.mp early
    by_cases self : j = id
    · simp [standing?, getElem?_put, self, found]
    · simp [standing?, getElem?_put, self]
  refine Manned.grant ⟨staffed.some_, ?_, ?_, ?_, ?_⟩
  · have distinct := staffed.distinct
    simp only [put, ← List.append_assoc]
    refine List.nodup_append.mpr ⟨distinct, by simp, ?_⟩
    intro a member b last
    rw [List.mem_singleton] at last
    rintro rfl
    rcases List.mem_append.mp member with holds | waits
    · exact outside (last ▸ holds)
    · exact apart (last ▸ waits)
  · intro j
    refine Iff.trans ?_ (standing j).symm
    rw [← staffed.queued_iff]
    simp [or_comm]
  · intro j member
    obtain ⟨m, found, rest⟩ := staffed.aboard j member
    have other : j ≠ id := fun same => outside (same ▸ member)
    exact ⟨m, by simp [getElem?_put, found, other], rest⟩
  · intro m member waits
    obtain ⟨j, found⟩ := List.mem_iff_getElem?.mp member
    rw [getElem?_put] at found
    obtain ⟨old, found', rfl⟩ := Option.map_eq_some_iff.mp found
    split at waits
    case isTrue self =>
      subst self
      rw [standing?_of_getElem? found', Option.some.injEq] at early
      rw [if_pos rfl]
      exact staffed.pooled old (List.mem_of_getElem? found') (.inl early)
    case isFalse other =>
      rw [if_neg other]
      exact staffed.pooled old (List.mem_of_getElem? found') waits

/-- A task that is not in the line gives back its worker if it has one. -/
theorem Manned.erase (manned : c.Manned) (other : c.standing? id ≠ some .queued) :
    ({ c with workers.holders := c.workers.holders.erase id
              workers.waiting := c.workers.waiting.erase id } : Crew).Manned := by
  have apart : id ∉ c.workers.waiting := by
    rw [manned.queued_iff]
    exact other
  rw [List.erase_of_not_mem apart]
  refine ⟨manned.some_, ?_, manned.queued_iff, ?_, manned.pooled⟩
  · exact manned.distinct.sublist (List.Sublist.append_right List.erase_sublist _)
  · intro j member
    exact manned.aboard j (List.mem_of_mem_erase member)

theorem Staffed.finish (staffed : c.Staffed) (other : c.standing? id ≠ some .queued)
    (result : Result) : (c.finish id result).Staffed := by
  have tell {d : Crew} (staffed : d.Staffed) (parent : Nat) : (d.tell parent result).Staffed := by
    unfold Crew.tell
    split
    case h_1 left n waits =>
      exact ⟨staffed.put (.inr rfl) (by simp [waits]) (by simp), staffed.full⟩
    case h_2 => exact staffed
  unfold Crew.finish
  split
  case h_1 => exact staffed
  case h_2 m found =>
    have ended : (if m.pooled = true then (c.put id (.ended result)).leave id
        else c.put id (.ended result)).Staffed := by
      split
      case isTrue =>
        have outside : id ∉ c.workers.holders.erase id :=
          fun member => (List.nodup_append.mp staffed.distinct).1.not_mem_erase member
        exact ((staffed.erase other).put (.inl outside) other (by simp)).grant
      case isFalse single =>
        have outside : id ∉ c.workers.holders := by
          intro member
          obtain ⟨m', found', pooled, _⟩ := staffed.aboard id member
          obtain rfl := Option.some.inj (found.symm.trans found')
          exact single pooled
        exact ⟨staffed.put (.inl outside) other (by simp), staffed.full⟩
    dsimp only
    split
    · exact tell ended _
    · exact ended

theorem Staffed.fork (staffed : c.Staffed) (busy : c.standing? id = some .busy) (n : Nat) :
    (c.fork id n).Staffed := by
  have manned : (c.put id (.joins n)).Manned :=
    staffed.put (.inr rfl) (by simp [busy]) (by simp)
  have member {j : Nat} {m : Member} (found : (c.fork id n).members[j]? = some m) :
      (c.put id (.joins n)).members[j]? = some m ∨ m = ⟨false, some id, .busy⟩ := by
    rw [Crew.fork, List.getElem?_append] at found
    split at found
    · exact .inl found
    · exact .inr (List.eq_of_mem_replicate (List.mem_of_getElem? found))
  have kept {j : Nat} {m : Member} (found : (c.put id (.joins n)).members[j]? = some m) :
      (c.fork id n).members[j]? = some m := by
    obtain ⟨inside, _⟩ := List.getElem?_eq_some_iff.mp found
    rw [Crew.fork, List.getElem?_append_left inside, found]
  refine ⟨⟨manned.some_, manned.distinct, ?_, ?_, ?_⟩, staffed.full⟩
  · intro j
    refine (manned.queued_iff j).trans ⟨fun at_ => ?_, fun at_ => ?_⟩
    · obtain ⟨m, found, queued⟩ := Option.map_eq_some_iff.mp at_
      rw [standing?_of_getElem? (kept found), queued]
    · obtain ⟨m, found, queued⟩ := Option.map_eq_some_iff.mp at_
      rcases member found with old | rfl
      · rw [standing?_of_getElem? old, queued]
      · cases queued
  · intro j holds
    obtain ⟨m, found, rest⟩ := manned.aboard j holds
    exact ⟨m, kept found, rest⟩
  · intro m inside early
    obtain ⟨j, found⟩ := List.mem_iff_getElem?.mp inside
    rcases member found with old | rfl
    · exact manned.pooled m (List.mem_of_getElem? old) early
    · simp at early

/-! ## Waiting for others -/

/-- For how many tasks this one waits. -/
def awaits (c : Crew) (id : Nat) : Nat := ((c.standing? id).map Standing.awaits).getD 0

/-- The task waits for just as many as have not ended. -/
def Tallies (c : Crew) (id : Nat) : Prop := c.children id = c.awaits id

/-- A task for which another one waits needs no worker and counts what it has delivered. -/
def Minded (c : Crew) : Prop :=
  ∀ m ∈ c.members, m.parent.isSome →
    m.pooled = false ∧ (m.standing = .busy ∨ ∃ n, m.standing = .ended (.count n))

theorem standing?_put (c : Crew) (id j : Nat) (st : Standing) :
    (c.put id st).standing? j =
      if j = id then (c.standing? j).map fun _ => st else c.standing? j := by
  simp only [standing?, getElem?_put, Option.map_map]
  by_cases self : j = id
  · simp [self, Function.comp_def]
  · simp [self, Function.comp_def]

theorem awaits_put_of_ne (c : Crew) (other : j ≠ id) (st : Standing) :
    (c.put id st).awaits j = c.awaits j := by
  rw [awaits, standing?_put, if_neg other, awaits]

theorem awaits_of_standing? (at_ : c.standing? id = some st) : c.awaits id = st.awaits := by
  rw [awaits, at_, Option.map_some, Option.getD_some]

theorem awaits_put (at_ : c.standing? id = some st) (st' : Standing) :
    (c.put id st').awaits id = st'.awaits := by
  apply awaits_of_standing?
  rw [standing?_put, if_pos rfl, at_, Option.map_some]

theorem awaits_grant (c : Crew) (id : Nat) : c.grant.awaits id = c.awaits id := by
  simp only [awaits, standing?, grant, getElem?_seat, Option.map_map]
  congr 2
  funext m
  simp only [Function.comp_apply]
  split
  case isTrue given => simp [given.2, Standing.awaits]
  case isFalse => rfl

theorem children_grant (c : Crew) (id : Nat) : c.grant.children id = c.children id :=
  children_seat _ _ id

theorem children_tell (c : Crew) (parent : Nat) (result : Result) (id : Nat) :
    (c.tell parent result).children id = c.children id := by
  unfold tell
  split
  case h_1 left n waits => exact children_put_same waits (.joins (left - 1)) rfl id
  case h_2 => rfl

theorem awaits_tell_of_ne (c : Crew) (parent : Nat) (result : Result) (other : j ≠ parent) :
    (c.tell parent result).awaits j = c.awaits j := by
  unfold tell
  split
  · exact awaits_put_of_ne c other _
  · rfl

theorem awaits_tell (c : Crew) (parent n : Nat) :
    (c.tell parent (.count n)).awaits parent = c.awaits parent - 1 := by
  unfold tell
  split
  case h_1 left _ waits _ =>
    rw [awaits_put waits, awaits_of_standing? waits]
    rfl
  case h_2 other =>
    have none_ : c.awaits parent = 0 := by
      cases standing : c.standing? parent with
      | none => rw [awaits, standing, Option.map_none, Option.getD_none]
      | some st =>
        rw [awaits_of_standing? standing]
        cases st with
        | joins left => exact absurd rfl (other left n standing)
        | _ => rfl
    rw [none_]

theorem Tallies.grown (tallies : c.Tallies id) (grown : c.Grown d) : d.Tallies id := by
  have same : d.awaits id = c.awaits id := by
    cases found : c.standing? id with
    | some st => rw [awaits_of_standing? found, awaits_of_standing? (grown.standing? found)]
    | none =>
      have none_ : c.awaits id = 0 := by rw [awaits, found, Option.map_none, Option.getD_none]
      cases late : d.members[id]? with
      | none => rw [none_, awaits, standing?, late, Option.map_none, Option.map_none,
          Option.getD_none]
      | some m =>
        rw [none_, awaits_of_standing? (standing?_of_getElem? late)]
        rcases grown.member late with old | rfl | rfl
        · rw [standing?_of_getElem? old] at found
          cases found
        · rfl
        · rfl
  rw [Tallies, grown.children, same]
  exact tallies

theorem Tallies.ask (tallies : c.Tallies j) (early : c.standing? id = some .early) :
    (c.ask id).Tallies j := by
  have children : (c.ask id).children j = c.children j :=
    (children_grant _ j).trans (children_put_same early .queued rfl j)
  have awaits : (c.ask id).awaits j = c.awaits j := by
    refine (awaits_grant _ j).trans ?_
    by_cases self : j = id
    · subst self
      exact (awaits_put early .queued).trans (awaits_of_standing? early).symm
    · exact awaits_put_of_ne c self .queued
  rw [Tallies, children, awaits]
  exact tallies

theorem Tallies.fork (tallies : c.Tallies j) (busy : c.standing? id = some .busy) (n : Nat) :
    (c.fork id n).Tallies j := by
  have children : (c.fork id n).children j = c.children j + if j = id then n else 0 := by
    rw [Crew.children, Crew.fork, List.countP_append, List.countP_replicate]
    rw [← children_put_same busy (.joins n) rfl j]
    by_cases self : j = id
    · simp [self, Crew.children, Standing.isEnded]
    · simp [self, Ne.symm self, Crew.children]
  have awaits : (c.fork id n).awaits j = (c.put id (.joins n)).awaits j := by
    rw [Crew.awaits, Crew.awaits, standing?, standing?, Crew.fork, List.getElem?_append]
    split
    · rfl
    case isFalse outside =>
      have none_ : (c.put id (.joins n)).members[j]? = none :=
        List.getElem?_eq_none (Nat.le_of_not_lt outside)
      rw [none_, List.getElem?_replicate]
      split <;> rfl
  rw [Tallies, children, awaits]
  by_cases self : j = id
  · subst self
    have none_ : c.children j = 0 := tallies.trans (awaits_of_standing? busy)
    rw [awaits_put busy, none_, if_pos rfl, Nat.zero_add]
    rfl
  · rw [awaits_put_of_ne c self, if_neg self]
    exact tallies

/-- A task that ends waits for none, and the one that waits for it is told. -/
theorem Tallies.finish (tallies : c.Tallies j) (at_ : c.members[id]? = some m)
    (going : m.standing.isEnded = false) (alone : c.awaits id = 0) {result : Result}
    (counts : m.parent = some j → ∃ n, result = .count n) : (c.finish id result).Tallies j := by
  have standing := standing?_of_getElem? at_
  -- Until it is told, the other one waits for one too many.
  let Almost (d : Crew) : Prop := d.children j + (if m.parent = some j then 1 else 0) = d.awaits j
  have put_ : Almost (c.put id (.ended result)) := by
    have fewer := children_put at_ j (.ended result)
    have awaits : (c.put id (.ended result)).awaits j = c.awaits j := by
      by_cases self : j = id
      · subst self
        exact (awaits_put standing (.ended result)).trans alone.symm
      · exact awaits_put_of_ne c self _
    have ended : (Standing.ended result).isEnded = true := rfl
    simp only [ended, going, and_true, Bool.true_eq_false, and_false, if_false] at fewer
    exact fewer.trans (tallies.trans awaits.symm)
  have given : Almost (if m.pooled = true then (c.put id (.ended result)).leave id
      else c.put id (.ended result)) := by
    split
    case isTrue =>
      have children := children_grant { c.put id (.ended result) with
        workers.holders := c.workers.holders.erase id
        workers.waiting := c.workers.waiting.erase id } j
      have awaits := awaits_grant { c.put id (.ended result) with
        workers.holders := c.workers.holders.erase id
        workers.waiting := c.workers.waiting.erase id } j
      exact (congrArg (· + _) children).trans (put_.trans awaits.symm)
    case isFalse => exact put_
  unfold Crew.finish
  simp only [at_]
  generalize (if m.pooled = true then (c.put id (.ended result)).leave id
      else c.put id (.ended result)) = d at given ⊢
  split
  case h_1 parent known =>
    by_cases self : j = parent
    · subst self
      obtain ⟨n, rfl⟩ := counts known
      have enough : d.children j + 1 = d.awaits j := by simpa [Almost, known] using given
      rw [Tallies, children_tell, awaits_tell]
      omega
    · have same : d.children j = d.awaits j := by simpa [Almost, known, Ne.symm self] using given
      rw [Tallies, children_tell, awaits_tell_of_ne d parent result self]
      exact same
  case h_2 none_ =>
    have same : d.children j = d.awaits j := by simpa [Almost, none_] using given
    exact same

/-! ## Moves -/

/-- How a task that is under way goes on: it still is, or it ends. Before that some tasks may have
been added. -/
inductive GoesOn (id : Nat) (c : Crew) : Crew → Prop where
  | stays {d : Crew} (grown : c.Grown d) : GoesOn id c d
  | ends {d : Crew} (grown : c.Grown d) (result : Result) : GoesOn id c (d.finish id result)

theorem GoesOn.after {e : Crew} (grown : c.Grown d) (goes : GoesOn id d e) : GoesOn id c e := by
  cases goes with
  | stays grown' => exact .stays (grown.trans grown')
  | ends grown' result => exact .ends (grown.trans grown') result

/-- What one move does to the workers and the tasks. -/
inductive Moves (c : Crew) : Crew → Prop where
  | grows {d : Crew} (grown : c.Grown d) : Moves c d
  | asks {id : Nat} (early : c.standing? id = some .early) : Moves c (c.ask id)
  | goes {id : Nat} {st : Standing} {d : Crew} (at_ : c.standing? id = some st)
      (going : st = .busy ∨ st = .joins 0) (goes : GoesOn id c d) : Moves c d
  | forks {id : Nat} (busy : c.standing? id = some .busy) (n : Nat) : Moves c (c.fork id n)

/-- Of each task, whether it needs a worker and which one waits for it. -/
def homes (c : Crew) : List (Bool × Option Nat) := c.members.map fun m => (m.pooled, m.parent)

theorem getElem?_homes (c : Crew) (j : Nat) :
    c.homes[j]? = c.members[j]?.map fun m => (m.pooled, m.parent) :=
  List.getElem?_map ..

@[simp]
theorem homes_put (c : Crew) (id : Nat) (st : Standing) : (c.put id st).homes = c.homes := by
  apply List.ext_getElem?
  intro j
  rw [getElem?_homes, getElem?_homes, getElem?_put, Option.map_map]
  congr 1
  funext m
  by_cases self : j = id <;> simp [self]

@[simp]
theorem homes_grant (c : Crew) : c.grant.homes = c.homes := by
  apply List.ext_getElem?
  intro j
  rw [grant, getElem?_homes, getElem?_homes, getElem?_seat, Option.map_map]
  congr 1
  funext m
  simp only [Function.comp_apply]
  split <;> rfl

@[simp]
theorem homes_leave (c : Crew) (id : Nat) : (c.leave id).homes = c.homes := homes_grant _

@[simp]
theorem homes_tell (c : Crew) (parent : Nat) (result : Result) :
    (c.tell parent result).homes = c.homes := by
  unfold tell
  split
  · exact homes_put _ _ _
  · rfl

@[simp]
theorem homes_finish (c : Crew) (id : Nat) (result : Result) :
    (c.finish id result).homes = c.homes := by
  unfold finish
  split
  · rfl
  · dsimp only
    split <;> split <;> simp

@[simp]
theorem homes_ask (c : Crew) (id : Nat) : (c.ask id).homes = c.homes :=
  (homes_grant _).trans (homes_put _ _ _)

theorem Grown.homes (grown : c.Grown d) :
    ∃ new, d.homes = c.homes ++ new ∧ ∀ h ∈ new, h.2 = none := by
  obtain ⟨_, new, members, orphans⟩ := grown
  refine ⟨new.map fun m => (m.pooled, m.parent), by simp [Crew.homes, members], ?_⟩
  intro h member
  obtain ⟨m, inside, rfl⟩ := List.mem_map.mp member
  exact (orphans m inside).1

theorem GoesOn.homes {id : Nat} (goes : GoesOn id c d) :
    ∃ new, d.homes = c.homes ++ new ∧ ∀ h ∈ new, h.2 = none := by
  cases goes with
  | stays grown => exact grown.homes
  | ends grown result =>
    rw [homes_finish]
    exact grown.homes

/-- Tasks stay what they are, and only a task that starts others waits for new ones. -/
theorem Moves.homes (moves : c.Moves d) : ∃ new, d.homes = c.homes ++ new ∧
    ((∀ h ∈ new, h.2 = none) ∨ ∃ id n, d = c.fork id n) := by
  cases moves with
  | grows grown =>
    obtain ⟨new, shape, orphans⟩ := grown.homes
    exact ⟨new, shape, .inl orphans⟩
  | asks early => exact ⟨[], by simp, by simp⟩
  | goes at_ aboard goes =>
    obtain ⟨new, shape, orphans⟩ := goes.homes
    exact ⟨new, shape, .inl orphans⟩
  | @forks id busy n =>
    refine ⟨List.replicate n (false, some id), ?_, .inr ⟨id, n, rfl⟩⟩
    rw [← homes_put c id (.joins n)]
    simp [Crew.homes, fork]

theorem getElem?_fork_of_none (missing : c.members[j]? = none) {n : Nat}
    (at_ : (c.fork id n).members[j]? = some m) : m = ⟨false, some id, .busy⟩ := by
  rw [fork, List.getElem?_append] at at_
  split at at_
  · rw [getElem?_put, missing] at at_
    cases at_
  · exact List.eq_of_mem_replicate (List.mem_of_getElem? at_)

/-- The workers are given out as they should be, and nobody waits for tasks that are not there. -/
structure Sound (c : Crew) : Prop where
  staffed : c.Staffed
  tallies : ∀ id, c.Tallies id

theorem getElem?_grant_ended (at_ : c.members[id]? = some m) (ended : m.standing = .ended result) :
    c.grant.members[id]? = some m := by
  rw [grant, getElem?_seat]
  simp [at_, ended]

/-- How a task is left that has ended. -/
theorem getElem?_finish (at_ : c.members[id]? = some m) (result : Result) :
    (c.finish id result).members[id]? = some { m with standing := .ended result } := by
  have ended : (c.put id (.ended result)).members[id]? =
      some { m with standing := .ended result } := by simp [getElem?_put, at_]
  have given : (if m.pooled = true then (c.put id (.ended result)).leave id
      else c.put id (.ended result)).members[id]? = some { m with standing := .ended result } := by
    split
    · exact getElem?_grant_ended ended rfl
    · exact ended
  unfold finish
  simp only [at_]
  generalize (if m.pooled = true then (c.put id (.ended result)).leave id
      else c.put id (.ended result)) = d at given ⊢
  split
  case h_1 parent known =>
    unfold tell
    split
    case h_1 left n waits =>
      have other : id ≠ parent := by
        rintro rfl
        rw [standing?_of_getElem? given] at waits
        cases waits
      simp [getElem?_put, given, other]
    case h_2 => exact given
  case h_2 => exact given

/-- A task that is under way and waits for no other one can end. -/
theorem Sound.finish (sound : c.Sound) (at_ : c.standing? id = some st)
    (going : st = .busy ∨ st = .joins 0) (minded : (c.finish id result).Minded) :
    (c.finish id result).Sound := by
  obtain ⟨m, found, rfl⟩ := Option.map_eq_some_iff.mp at_
  have alone : c.awaits id = 0 := by
    rw [awaits_of_standing? at_]
    rcases going with busy | joins
    · rw [busy]
      rfl
    · rw [joins]
      rfl
  have open_ : m.standing.isEnded = false ∧ m.standing ≠ .queued := by
    rcases going with busy | joins
    · simp [busy, Standing.isEnded]
    · simp [joins, Standing.isEnded]
  refine ⟨sound.staffed.finish (by simpa [at_] using open_.2) result, fun j => ?_⟩
  refine (sound.tallies j).finish found open_.1 alone fun child => ?_
  have ended := getElem?_finish found result
  obtain ⟨_, busy | ⟨n, count⟩⟩ := minded _ (List.mem_of_getElem? ended) (by simp [child])
  · cases busy
  · exact ⟨n, Standing.ended.inj count⟩

theorem Moves.sound (moves : c.Moves d) (sound : c.Sound) (minded : d.Minded) : d.Sound := by
  have grows {d : Crew} (grown : c.Grown d) : d.Sound :=
    ⟨sound.staffed.grown grown, fun j => (sound.tallies j).grown grown⟩
  cases moves with
  | grows grown => exact grows grown
  | asks early => exact ⟨sound.staffed.ask early, fun j => (sound.tallies j).ask early⟩
  | forks busy n => exact ⟨sound.staffed.fork busy n, fun j => (sound.tallies j).fork busy n⟩
  | goes at_ going goes =>
    cases goes with
    | stays grown => exact grows grown
    | ends grown result => exact (grows grown).finish (grown.standing? at_) going minded

/-- If nothing is under way, then nobody waits for a worker or for another task. -/
theorem Sound.nobody_waits (sound : c.Sound) (minded : c.Minded)
    (rest : ∀ id, c.standing? id ≠ some .busy ∧ c.standing? id ≠ some (.joins 0)) (id : Nat) :
    c.standing? id ≠ some .queued ∧ ∀ left, c.standing? id ≠ some (.joins left) := by
  have single (k left : Nat) : c.standing? k ≠ some (.joins left) := by
    intro at_
    have some_ : left ≠ 0 := by
      rintro rfl
      exact (rest k).2 at_
    have tallies : c.children k = left := (sound.tallies k).trans (awaits_of_standing? at_)
    have child : 0 < c.children k := by omega
    obtain ⟨j, m, found, parent, going⟩ := exists_child child
    obtain ⟨_, busy | ⟨n, ended⟩⟩ := minded m (List.mem_of_getElem? found) (by simp [parent])
    · exact (rest j).1 (busy ▸ standing?_of_getElem? found)
    · simp [ended, Standing.isEnded] at going
  refine ⟨fun waits => ?_, single id⟩
  have line : c.workers.waiting ≠ [] :=
    List.ne_nil_of_mem ((sound.staffed.queued_iff id).mpr waits)
  have full := sound.staffed.full line
  have some_ := sound.staffed.some_
  obtain ⟨j, holds⟩ := List.exists_mem_of_length_pos (l := c.workers.holders) (by omega)
  obtain ⟨m, found, _, aboard⟩ := sound.staffed.aboard j holds
  have at_ := standing?_of_getElem? found
  cases standing : m.standing with
  | busy => exact (rest j).1 (standing ▸ at_)
  | joins left => exact single j left (standing ▸ at_)
  | _ =>
    rw [standing] at aboard
    cases aboard

end Crew

end Outbox
