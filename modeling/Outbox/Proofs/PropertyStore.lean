import Mathlib.Data.List.Induction
import Mathlib.Data.List.Nodup
import Outbox.Proofs.Blanks
import Outbox.Session.Properties

/-! # The store of session properties

A property moves between two maps when it is set again, the number of properties is limited, and the
beginning of an envelope empties one of the maps. Through any sequence of calls a name stays in one
place at most, and its value is the one that was set last. Names lose the white space around them
when they are set, and only then: a property is read and removed by the name it was set with exactly
if that name has no such white space.
-/

namespace Outbox

/-- What can be done to the properties of a session. -/
inductive PropertyCall where
  | add (name value : String) (permanent : Bool)
  | remove (name : String)
  | setUser (user : Option String)
  | beginEnvelope (time : Millis) (clearUser : Bool)
  deriving Repr, DecidableEq

namespace PropertyCall

variable {call : PropertyCall} {key value : String} {permanent : Bool}

/-- The call sets the property of this name, permanently or not. -/
def Sets (key value : String) (permanent : Bool) (call : PropertyCall) : Prop :=
  ∃ name, call = .add name value permanent ∧ Text.trim name = key

/-- The call is about the property of this name, if that is permanent or not as given: it sets the
property anew, or takes it away. -/
def Concerns (key : String) (permanent : Bool) : PropertyCall → Prop
  | add name _ _ => Text.trim name = key
  | remove name => name = key
  | setUser _ => False
  | beginEnvelope _ _ => permanent = false

/-- Of these calls the last one about the property sets it. -/
def SetLast (key value : String) (permanent : Bool) (calls : List PropertyCall) : Prop :=
  ∃ before call after, calls = before ++ call :: after ∧ call.Sets key value permanent ∧
    ∀ later ∈ after, ¬later.Concerns key permanent

theorem not_setLast_nil : ¬SetLast key value permanent [] := by
  rintro ⟨before, call, after, split, -⟩
  simp at split

theorem setLast_concat {calls : List PropertyCall} :
    SetLast key value permanent (calls ++ [call]) ↔ call.Sets key value permanent ∨
      SetLast key value permanent calls ∧ ¬call.Concerns key permanent := by
  constructor
  · rintro ⟨before, setter, after, split, sets, quiet⟩
    rcases List.eq_nil_or_concat after with rfl | ⟨after, last, rfl⟩
    · obtain ⟨rfl, same⟩ := List.append_inj' split rfl
      obtain rfl := List.singleton_inj.mp same
      exact .inl sets
    · rw [List.concat_eq_append, ← List.cons_append, ← List.append_assoc] at split
      obtain ⟨rfl, same⟩ := List.append_inj' split rfl
      obtain rfl := List.singleton_inj.mp same
      refine .inr ⟨⟨before, setter, after, rfl, sets, fun later member => ?_⟩, quiet call (by simp)⟩
      exact quiet later (by simp [member])
  · rintro (sets | ⟨⟨before, setter, after, rfl, sets, quiet⟩, other⟩)
    · exact ⟨calls, call, [], rfl, sets, by simp⟩
    · refine ⟨before, setter, after ++ [call], by simp, sets, fun later member => ?_⟩
      rcases List.mem_append.mp member with inside | last
      · exact quiet later inside
      · exact List.mem_singleton.mp last ▸ other

end PropertyCall

namespace Values

variable {v : Values} {f : String × String} {key value : String}

theorem mem_without : f ∈ v.without key ↔ f ∈ v ∧ f.1 ≠ key := by
  simp [without]

theorem has_iff : v.has key = true ↔ key ∈ v.map Prod.fst := by
  simp [has]

theorem lookup_eq_some_iff (once : (v.map Prod.fst).Nodup) :
    v.lookup key = some value ↔ (key, value) ∈ v := by
  induction v with
  | nil => simp
  | cons f v ih =>
    obtain ⟨k, w⟩ := f
    rw [List.map_cons, List.nodup_cons] at once
    rw [List.lookup_cons, List.mem_cons, Prod.mk.injEq]
    by_cases same : key = k
    · subst same
      have fresh : (key, value) ∉ v := fun member => once.1 (List.mem_map.mpr ⟨_, member, rfl⟩)
      simp [fresh, eq_comm]
    · rw [beq_eq_false_iff_ne.mpr same]
      simp [same, ih once.2]

end Values

namespace Properties

variable {p q : Properties} {key value name : String} {permanent other : Bool}
  {f : String × String} {call : PropertyCall}

/-- The properties that are permanent, or those that are not. -/
def held (p : Properties) (permanent : Bool) : Values :=
  if permanent then p.permanent else p.temporary

/-- The properties with this one, wherever it was before. -/
def put (p : Properties) (key value : String) (permanent : Bool) : Properties :=
  if permanent then
    { p with temporary := p.temporary.without key
             permanent := p.permanent.without key ++ [(key, value)] }
  else
    { p with temporary := p.temporary.without key ++ [(key, value)]
             permanent := p.permanent.without key }

/-- There is no room for a property of this name. -/
def Refuses (p : Properties) (name : String) : Prop :=
  Text.trim name = "" ∨ p.contains (Text.trim name) = false ∧ p.limit ≤ p.size

instance (p : Properties) (name : String) : Decidable (p.Refuses name) :=
  inferInstanceAs (Decidable (_ ∨ _ ∧ _))

theorem add_eq (p : Properties) (name value : String) (permanent : Bool) :
    p.add name value permanent =
      if p.Refuses name then (p, false) else (p.put (Text.trim name) value permanent, true) := by
  simp only [add, Refuses, put, String.isEmpty_iff, Bool.and_eq_true, Bool.not_eq_true',
    decide_eq_true_eq]
  split
  · next blank => simp [blank]
  · next named =>
    simp only [named, false_or]
    split
    · rfl
    · cases permanent <;> rfl

theorem add_eq_false_iff (p : Properties) (name value : String) (permanent : Bool) :
    (p.add name value permanent).2 = false ↔ p.Refuses name := by
  rw [add_eq]
  split <;> simp_all

theorem not_refuses_of_add (taken : (p.add name value permanent).2 = true) : ¬p.Refuses name := by
  rw [← p.add_eq_false_iff name value permanent, taken]
  simp

theorem add_of_refused (refused : p.Refuses name) : p.add name value permanent = (p, false) := by
  rw [add_eq, if_pos refused]

theorem add_of_taken (taken : ¬p.Refuses name) :
    p.add name value permanent = (p.put (Text.trim name) value permanent, true) := by
  rw [add_eq, if_neg taken]

/-! ## What the maps hold -/

theorem mem_held_put : f ∈ (p.put key value permanent).held other ↔
    f = (key, value) ∧ permanent = other ∨ f ∈ p.held other ∧ f.1 ≠ key := by
  cases permanent <;> cases other <;> simp [put, held, Values.mem_without, or_comm]

theorem mem_all : f ∈ p.all ↔ ∃ permanent, f ∈ p.held permanent := by
  simp [all, held, or_comm]

theorem all_put (p : Properties) (key value : String) (permanent : Bool) :
    (p.put key value permanent).all.Perm ((key, value) :: p.all.without key) := by
  have front : p.all.without key = p.permanent.without key ++ p.temporary.without key :=
    List.filter_append ..
  rw [front]
  cases permanent
  · rw [put, if_neg Bool.false_ne_true, all, ← List.append_assoc]
    exact List.perm_append_singleton _ _
  · rw [put, if_pos rfl, all, List.append_assoc]
    exact List.perm_middle

theorem all_remove (p : Properties) (key : String) : (p.remove key).1.all = p.all.without key :=
  (List.filter_append ..).symm

theorem all_beginEnvelope (p : Properties) (time : Millis) (clearUser : Bool) :
    (p.beginEnvelope time clearUser).all = p.permanent :=
  List.append_nil _

/-- Taking a property back leaves the others as they were before it was set. -/
theorem without_all_put (p : Properties) (key value : String) (permanent : Bool) :
    (p.put key value permanent).all.without key = p.all.without key := by
  cases permanent <;> simp [put, all, Values.without]

theorem size_eq (p : Properties) : p.size = p.all.length := by
  rw [size, all, List.length_append, Nat.add_comm]

theorem contains_iff : p.contains key = true ↔ key ∈ p.all.map Prod.fst := by
  rw [contains, Bool.or_eq_true, Values.has_iff, Values.has_iff, all, List.map_append,
    List.mem_append, or_comm]

theorem remove_of_missing (missing : key ∉ p.all.map Prod.fst) : p.remove key = (p, false) := by
  have others (permanent : Bool) : (p.held permanent).without key = p.held permanent := by
    refine List.filter_eq_self.mpr fun f member => bne_iff_ne.mpr ?_
    rintro rfl
    exact missing (List.mem_map.mpr ⟨f, mem_all.mpr ⟨permanent, member⟩, rfl⟩)
  have absent : p.contains key = false := by
    rwa [← Bool.not_eq_true, contains_iff]
  have temporary : p.temporary.without key = p.temporary := others false
  have permanent : p.permanent.without key = p.permanent := others true
  rw [remove, absent, temporary, permanent]

/-! ## What every sequence of calls keeps -/

/-- A name has one place at most, the names are within the limit, and they are such as remain when
the white space around them is taken away. -/
structure Sound (p : Properties) : Prop where
  once : (p.all.map Prod.fst).Nodup
  within : p.all.length ≤ p.limit
  plain : ∀ f ∈ p.all, f.1 ≠ "" ∧ Text.trim f.1 = f.1

theorem Sound.get?_eq_some_iff (sound : p.Sound) :
    p.get? key = some value ↔ (key, value) ∈ p.all := by
  have whole : p.get? key = p.all.lookup key := by
    rw [get?, all, List.lookup_append]
    cases p.permanent.lookup key <;> rfl
  rw [whole, Values.lookup_eq_some_iff sound.once]

theorem Sound.get?_eq_none_iff (sound : p.Sound) :
    p.get? key = none ↔ key ∉ p.all.map Prod.fst := by
  rw [Option.eq_none_iff_forall_ne_some]
  simp [sound.get?_eq_some_iff]

theorem Sound.of_sublist (sound : p.Sound) (less : q.all.Sublist p.all) (same : q.limit = p.limit) :
    q.Sound where
  once := sound.once.sublist (less.map Prod.fst)
  within := same ▸ less.length_le.trans sound.within
  plain f member := sound.plain f (less.subset member)

theorem Sound.put (sound : p.Sound) (taken : ¬p.Refuses name) (value : String) (permanent : Bool) :
    (p.put (Text.trim name) value permanent).Sound := by
  have perm := p.all_put (Text.trim name) value permanent
  have same : (p.put (Text.trim name) value permanent).limit = p.limit := by
    cases permanent <;> rfl
  obtain ⟨named, room⟩ := not_or.mp taken
  have fewer : (p.all.without (Text.trim name)).Sublist p.all := List.filter_sublist
  refine ⟨?_, ?_, fun f member => ?_⟩
  · rw [(perm.map Prod.fst).nodup_iff, List.map_cons, List.nodup_cons]
    refine ⟨fun member => ?_, sound.once.sublist (fewer.map Prod.fst)⟩
    obtain ⟨f, inside, front⟩ := List.mem_map.mp member
    exact (Values.mem_without.mp inside).2 front
  · rw [perm.length_eq, same, List.length_cons]
    by_cases there : p.contains (Text.trim name) = true
    · -- the old value makes room for the new one
      obtain ⟨f, inside, front⟩ := List.mem_map.mp (contains_iff.mp there)
      have left : (p.all.without (Text.trim name)).length < p.all.length :=
        List.length_filter_lt_length_iff_exists.mpr ⟨f, inside, by simp [front]⟩
      exact Nat.lt_of_lt_of_le left sound.within
    · have := fewer.length_le
      have := p.size_eq
      simp only [Bool.not_eq_true] at there
      have : ¬p.limit ≤ p.size := fun full => room ⟨there, full⟩
      omega
  · rcases List.mem_cons.mp (perm.mem_iff.mp member) with rfl | inside
    · exact ⟨named, Text.trim_trim name⟩
    · exact sound.plain f (fewer.subset inside)

def perform (p : Properties) : PropertyCall → Properties
  | .add name value permanent => (p.add name value permanent).1
  | .remove name => (p.remove name).1
  | .setUser user => p.setUser user
  | .beginEnvelope time clearUser => p.beginEnvelope time clearUser

theorem Sound.perform (sound : p.Sound) (call : PropertyCall) : (p.perform call).Sound := by
  cases call with
  | add name value permanent =>
    by_cases refused : p.Refuses name
    · rwa [Properties.perform, add_of_refused refused]
    · rw [Properties.perform, add_of_taken refused]
      exact sound.put refused value permanent
  | remove name =>
    refine sound.of_sublist ?_ rfl
    rw [Properties.perform, all_remove]
    exact List.filter_sublist
  | setUser user => exact sound.of_sublist (List.Sublist.refl _) rfl
  | beginEnvelope time clearUser =>
    refine sound.of_sublist ?_ rfl
    rw [Properties.perform, all_beginEnvelope]
    exact List.sublist_append_left p.permanent p.temporary

/-- The properties after some calls, when there were none before. -/
def run (limit : Nat) (calls : List PropertyCall) : Properties :=
  calls.foldl perform (empty limit)

theorem run_concat (limit : Nat) (calls : List PropertyCall) (call : PropertyCall) :
    run limit (calls ++ [call]) = (run limit calls).perform call := by
  simp [run]

theorem limit_perform (p : Properties) (call : PropertyCall) :
    (p.perform call).limit = p.limit := by
  cases call with
  | add name value permanent =>
    rw [perform, add_eq]
    split
    · rfl
    · cases permanent <;> rfl
  | remove | setUser | beginEnvelope => rfl

theorem limit_run (limit : Nat) (calls : List PropertyCall) : (run limit calls).limit = limit := by
  induction calls using List.reverseRecOn with
  | nil => rfl
  | append_singleton calls call ih => rw [run_concat, limit_perform, ih]

theorem run_sound (limit : Nat) (calls : List PropertyCall) : (run limit calls).Sound := by
  induction calls using List.reverseRecOn with
  | nil => exact ⟨List.nodup_nil, Nat.zero_le _, by simp [run, empty, all]⟩
  | append_singleton calls call ih => rw [run_concat]; exact ih.perform call

/-! ## Which value a name has -/

/-- The call is not an addition that is refused. -/
def grants (p : Properties) : PropertyCall → Bool
  | .add name value permanent => (p.add name value permanent).2
  | _ => true

/-- The calls without the additions that are refused. -/
def granted (p : Properties) : List PropertyCall → List PropertyCall
  | [] => []
  | call :: calls => (if p.grants call then [call] else []) ++ granted (p.perform call) calls

theorem granted_concat (p : Properties) (calls : List PropertyCall) (call : PropertyCall) :
    p.granted (calls ++ [call]) =
      p.granted calls ++ if (calls.foldl perform p).grants call then [call] else [] := by
  induction calls generalizing p with
  | nil => exact List.append_nil _
  | cons first calls ih =>
    rw [List.cons_append, granted, ih, granted, List.append_assoc, List.foldl_cons]

theorem perform_of_refused (refused : p.grants call = false) : p.perform call = p := by
  cases call with
  | add name value permanent =>
    exact congrArg Prod.fst (add_of_refused ((p.add_eq_false_iff name value permanent).mp refused))
  | remove | setUser | beginEnvelope => cases refused

/-- What a call does to the properties that are permanent, and to those that are not. -/
theorem mem_held_perform (granted : p.grants call = true) :
    (key, value) ∈ (p.perform call).held permanent ↔
      call.Sets key value permanent ∨
        (key, value) ∈ p.held permanent ∧ ¬call.Concerns key permanent := by
  cases call with
  | add name w other =>
    rw [perform, add_of_taken (not_refuses_of_add granted), mem_held_put]
    simp only [PropertyCall.Sets, PropertyCall.Concerns, Prod.mk.injEq, PropertyCall.add.injEq]
    grind
  | remove name =>
    cases permanent <;>
      simp [perform, Properties.remove, held, Values.mem_without, PropertyCall.Sets,
        PropertyCall.Concerns, eq_comm]
  | setUser user =>
    simp [perform, setUser, held, PropertyCall.Sets, PropertyCall.Concerns]
  | beginEnvelope time clearUser =>
    cases permanent <;>
      simp [perform, beginEnvelope, held, PropertyCall.Sets, PropertyCall.Concerns]

theorem mem_held_run (limit : Nat) (calls : List PropertyCall) :
    (key, value) ∈ (run limit calls).held permanent ↔
      PropertyCall.SetLast key value permanent ((empty limit).granted calls) := by
  induction calls using List.reverseRecOn with
  | nil =>
    simp only [granted, PropertyCall.not_setLast_nil, iff_false]
    cases permanent <;> simp [run, empty, held]
  | append_singleton calls call ih =>
    rw [run_concat, granted_concat]
    by_cases granted : (run limit calls).grants call = true
    · rw [← run, if_pos granted, mem_held_perform granted, ih, PropertyCall.setLast_concat]
    · rw [← run, if_neg granted, List.append_nil, ← ih,
        perform_of_refused (Bool.not_eq_true _ ▸ granted)]

/-- The store through any sequence of calls. A name is in one map at most, the names stay within the
limit and have no white space around them, and all properties together are those that can be read.
An addition is refused exactly if its name is blank, or new when the limit is reached, and changes
nothing then. The beginning of an envelope leaves the permanent properties and no others. So a name
has the value that the last granted addition gave it, unless it was removed since, or was not
permanent and an envelope was begun since. -/
theorem value_is_set_last (limit : Nat) (calls : List PropertyCall) :
    let p := run limit calls
    (∀ key, p.temporary.has key = true → p.permanent.has key = false) ∧
      p.size ≤ limit ∧
      (∀ key, p.contains key = true → key ≠ "" ∧ Text.trim key = key) ∧
      ((p.all.map Prod.fst).Nodup ∧ p.all.length = p.temporary.length + p.permanent.length ∧
        ∀ key value, (key, value) ∈ p.all ↔ p.get? key = some value) ∧
      (∀ name value permanent,
        ((p.add name value permanent).2 = false → (p.add name value permanent).1 = p) ∧
        ((p.add name value permanent).2 = false ↔
          (∀ c ∈ name.toList, Text.isBlank c = true) ∨
            p.get? (Text.trim name) = none ∧ p.size = limit)) ∧
      (∀ time clearUser, (p.beginEnvelope time clearUser).all = p.permanent ∧
        ∀ key value, (p.beginEnvelope time clearUser).get? key = some value ↔
          (key, value) ∈ p.permanent) ∧
      ∀ key value, p.get? key = some value ↔ ∃ permanent,
        PropertyCall.SetLast key value permanent ((empty limit).granted calls) := by
  intro p
  have sound : p.Sound := run_sound limit calls
  have same : p.limit = limit := limit_run limit calls
  have within : p.size ≤ limit := by
    rw [p.size_eq, ← same]
    exact sound.within
  refine ⟨fun key temporary => ?_, within, fun key there => ?_,
    ⟨sound.once, by rw [← p.size_eq, size], fun key value => sound.get?_eq_some_iff.symm⟩,
    fun name value permanent => ⟨fun refused => ?_, ?_⟩, fun time clearUser => ⟨?_, ?_⟩,
    fun key value => ?_⟩
  · have apart := sound.once
    rw [all, List.map_append, List.nodup_append'] at apart
    rw [← Bool.not_eq_true, Values.has_iff]
    exact fun permanent => apart.2.2 permanent (Values.has_iff.mp temporary)
  · obtain ⟨f, member, rfl⟩ := List.mem_map.mp (contains_iff.mp there)
    exact sound.plain f member
  · rw [add_of_refused ((p.add_eq_false_iff name value permanent).mp refused)]
  · have missing : p.get? (Text.trim name) = none ↔ p.contains (Text.trim name) = false := by
      rw [sound.get?_eq_none_iff, ← contains_iff, Bool.not_eq_true]
    rw [add_eq_false_iff, Refuses, Text.trim_eq_empty_iff, missing, same]
    have full : limit ≤ p.size ↔ p.size = limit := by omega
    rw [full]
  · exact p.all_beginEnvelope time clearUser
  · intro key value
    have after : (p.beginEnvelope time clearUser).Sound :=
      sound.perform (.beginEnvelope time clearUser)
    rw [after.get?_eq_some_iff, all_beginEnvelope]
  · rw [sound.get?_eq_some_iff, mem_all]
    exact exists_congr fun permanent => mem_held_run limit calls

/-- At the limit a name is refused that is new, and one that is there takes another value. -/
example : (run 2 [.add "a" "1" false, .add "b" "2" true, .add "c" "3" false, .add " a" "10" true,
    .beginEnvelope 0 false]).all = [("b", "2"), ("a", "10")] := by decide +kernel

/-! ## Properties by the name they were set with -/

/-- The property that was added to `p` is read from `q` and removed there by this name, and the
others are left as they were before. -/
structure TakesBack (p q : Properties) (name value : String) : Prop where
  read : q.get? name = some value
  removed : (q.remove name).2 = true
  gone : (q.remove name).1.get? name = none
  rest : (q.remove name).1.all = p.all.without name

theorem Sound.takesBack (sound : p.Sound) (taken : ¬p.Refuses name) (value : String)
    (permanent : Bool) :
    TakesBack p (p.put (Text.trim name) value permanent) (Text.trim name) value := by
  have after := sound.put taken value permanent
  have there : (Text.trim name, value) ∈ (p.put (Text.trim name) value permanent).all :=
    (p.all_put _ value permanent).mem_iff.mpr (by simp)
  have left : ((p.put (Text.trim name) value permanent).remove (Text.trim name)).1.Sound :=
    after.perform (.remove (Text.trim name))
  have rest : ((p.put (Text.trim name) value permanent).remove (Text.trim name)).1.all =
      p.all.without (Text.trim name) := by
    rw [all_remove, without_all_put]
  refine ⟨after.get?_eq_some_iff.mpr there, contains_iff.mpr (List.mem_map.mpr ⟨_, there, rfl⟩),
    left.get?_eq_none_iff.mpr fun member => ?_, rest⟩
  rw [rest] at member
  obtain ⟨f, inside, front⟩ := List.mem_map.mp member
  exact (Values.mem_without.mp inside).2 front

/-- A property is read and removed by the name that it was added with, exactly if this name has no
white space around it. Without that white space the name always does. With it, nothing is found and
nothing is removed. -/
theorem taken_back_iff_trimmed {limit : Nat} {calls : List PropertyCall} {name value : String}
    {permanent : Bool} (accepted : ((run limit calls).add name value permanent).2 = true) :
    let p := run limit calls
    let q := (p.add name value permanent).1
    (TakesBack p q name value ↔ Text.trim name = name) ∧ TakesBack p q (Text.trim name) value ∧
      (Text.trim name ≠ name → q.get? name = none ∧ q.remove name = (q, false)) := by
  intro p q
  have sound : p.Sound := run_sound limit calls
  have taken : ¬p.Refuses name := not_refuses_of_add accepted
  have added : q = p.put (Text.trim name) value permanent :=
    congrArg Prod.fst (add_of_taken taken)
  have after : q.Sound := added ▸ sound.put taken value permanent
  have trimmed : TakesBack p q (Text.trim name) value :=
    added ▸ sound.takesBack taken value permanent
  -- no name in the store has white space around it
  have lost (other : Text.trim name ≠ name) : name ∉ q.all.map Prod.fst := by
    intro member
    obtain ⟨f, member, rfl⟩ := List.mem_map.mp member
    exact other (after.plain f member).2
  refine ⟨⟨fun back => ?_, fun same => ?_⟩, trimmed,
    fun other => ⟨after.get?_eq_none_iff.mpr (lost other), remove_of_missing (lost other)⟩⟩
  · by_contra other
    have read := back.read
    rw [after.get?_eq_none_iff.mpr (lost other)] at read
    cases read
  · rw [same] at trimmed
    exact trimmed

/-- A full store, in which the property is set again by a name with white space around it. -/
theorem taken_back_iff_trimmed_of_full :
    let p := run 1 [.add "plan" "free" false]
    let q := (p.add " plan\t" "pro" true).1
    (p.add " plan\t" "pro" true).2 = true ∧ TakesBack p q "plan" "pro" ∧
      q.get? " plan\t" = none ∧ q.remove " plan\t" = (q, false) := by
  have accepted : ((run 1 [.add "plan" "free" false]).add " plan\t" "pro" true).2 = true := by
    decide +kernel
  have trimmed : Text.trim " plan\t" = "plan" := by decide +kernel
  obtain ⟨-, back, lost⟩ := taken_back_iff_trimmed accepted
  rw [trimmed] at back lost
  exact ⟨accepted, back, lost (by decide)⟩

/-- A property that was accepted is neither found nor removed by the name it was added with. -/
theorem lost_by_own_name :
    let p := run 100 []
    let q := (p.add " plan" "pro" true).1
    (p.add " plan" "pro" true).2 = true ∧ q.get? " plan" = none ∧ (q.remove " plan").2 = false ∧
      (q.remove " plan").1.all = [("plan", "pro")] := by
  decide +kernel

end Properties

end Outbox
