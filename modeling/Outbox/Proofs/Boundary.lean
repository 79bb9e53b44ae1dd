import Outbox.Proofs.Succession
import Outbox.Rehearsal.Puppet

/-! # The properties at a boundary

A transition that fails keeps the session as it was. The session properties are another matter: the
boundary hook has cleared them when the next envelope cannot be built, and nobody puts them back. So
they are as before exactly if the failure came first, or if there was nothing to clear.
-/

namespace Outbox

variable {σ : Type}

namespace Properties

/-- There is nothing that belongs to an envelope, and a boundary at this time is on record. -/
def Settled (p : Properties) (time : Millis) (clearUser : Bool) : Prop :=
  p.temporary = [] ∧ (clearUser = true → p.user = none) ∧ p.lastBoundary = some time

instance (p : Properties) (time : Millis) (clearUser : Bool) :
    Decidable (p.Settled time clearUser) :=
  inferInstanceAs (Decidable (_ ∧ _ ∧ _))

theorem beginEnvelope_eq_self_iff {p : Properties} {time : Millis} {clearUser : Bool} :
    p.beginEnvelope time clearUser = p ↔ p.Settled time clearUser := by
  obtain ⟨limit, temporary, permanent, user, last⟩ := p
  cases clearUser <;> simp [beginEnvelope, Settled, eq_comm]

end Properties

/-- The boundary hook of the host is the one of its session properties, unless it fails before that.
Its builders leave them alone. -/
structure Host.Keeps (h : Host σ) (properties : σ → Properties) : Prop where
  initial : ∀ params x, properties (h.buildInitial params x).2 = properties x
  final : ∀ params x, properties (h.buildFinal params x).2 = properties x
  prepared : ∀ time clearUser x, (h.prepare time clearUser x).1 = .value () →
    properties (h.prepare time clearUser x).2 = (properties x).beginEnvelope time clearUser
  refused : ∀ time clearUser x, (h.prepare time clearUser x).1 ≠ .value () →
    properties (h.prepare time clearUser x).2 = properties x

theorem Puppet.host_keeps : Puppet.host.Keeps Puppet.properties where
  initial params x := by
    simp only [host, buildInitial]
    split <;> rfl
  final params x := rfl
  prepared time clearUser x done := by
    simp only [host, prepare] at done ⊢
    cases fault : x.boundaryFault <;> simp [fault, Fault.apply] at done ⊢
  refused time clearUser x failed := by
    simp only [host, prepare] at failed ⊢
    cases fault : x.boundaryFault <;> simp [fault, Fault.apply] at failed ⊢

namespace Session

variable {h : Host σ} {properties : σ → Properties} {c : Config} {t : Transition} {time : Millis}
  {s : Session} {host : σ}

theorem buildFinal_properties (keeps : h.Keeps properties) :
    properties (s.buildFinal h t time host).2 = properties host := by
  unfold buildFinal
  cases s.active with
  | none => rfl
  | some e =>
    dsimp only
    split <;> exact keeps.final _ _

theorem buildInitial_properties (keeps : h.Keeps properties) (c : Config) (t : Transition)
    (time : Millis) (s : Session) (host : σ) :
    properties (s.buildInitial h c t time host).2 = properties host := by
  unfold buildInitial
  dsimp only
  split
  · split <;> exact keeps.initial _ _
  · rfl

theorem prepare_properties (keeps : h.Keeps properties) (t : Transition) (time : Millis)
    (host : σ) :
    properties (prepare h t time host).2 =
      if (prepare h t time host).1.isOk then (properties host).beginEnvelope time t.clearsUser
      else properties host := by
  unfold prepare
  cases result : (h.prepare time t.clearsUser host).1.outcome BoundaryError.text with
  | ok =>
    simp only [result]
    exact keeps.prepared _ _ _ (Attempt.outcome_eq_ok_iff.mp result)
  | error cause =>
    simp only [result]
    refine keeps.refused _ _ _ fun done => ?_
    rw [done] at result
    cases result

/-- A transition that fails keeps the session and sends nothing. The properties are as they were
exactly if the final form could not be built, if the boundary hook failed, or if there was nothing
to clear; otherwise they are cleared. -/
theorem properties_kept_iff (keeps : h.Keeps properties) (s : Session) (host : σ)
    (failed : (s.transition h c t time host).result = .failed) :
    let turn := s.transition h c t time host
    let final := s.buildFinal h t time host
    turn.session = s ∧ turn.sent = none ∧
      (properties turn.host = properties host ↔
        final.1.isOk = false ∨ (prepare h t time final.2).1.isOk = false ∨
          (properties host).Settled time t.clearsUser) ∧
      (properties turn.host = properties host ∨
        properties turn.host = (properties host).beginEnvelope time t.clearsUser) := by
  intro turn final
  have did : Transits h c t time s host turn := transition_transits h c t time s host
  have ended : properties final.2 = properties host := buildFinal_properties keeps
  have prepared := prepare_properties keeps t time final.2
  rw [ended] at prepared
  change turn.result = .failed at failed
  generalize turn = turn at did failed
  cases did with
  | skips | completes => cases failed
  | unended ends =>
    have same : properties final.2 = properties host := ended
    simp only [final, ends] at same ⊢
    exact ⟨rfl, rfl, iff_of_true same (.inl rfl), .inl same⟩
  | unprepared ends prepares =>
    simp only [final, ends, prepares] at prepared ⊢
    exact ⟨rfl, rfl, iff_of_true prepared (.inr (.inl rfl)), .inl prepared⟩
  | @unbegun x y z _ _ ends prepares begins =>
    simp only [final, ends, prepares] at prepared ⊢
    have begun : properties z = properties y := by
      have kept := buildInitial_properties keeps c t time s y
      rwa [begins] at kept
    have cleared : properties z = (properties host).beginEnvelope time t.clearsUser :=
      begun.trans prepared
    refine ⟨rfl, rfl, ?_, .inr cleared⟩
    rw [stay, cleared, Properties.beginEnvelope_eq_self_iff]
    simp [Except.isOk, Except.toBool]

/-- The first envelope runs in the foreground. -/
def opened : Turn Puppet TransitionOutcome := begin Puppet.host .default .foreground 0 .fresh

/-- The host has a temporary property now, and cannot build the next envelope. -/
def hampered : Puppet :=
  { opened.host with
    initialFault := .error
    properties := (opened.host.properties.add "screen" "home" false).1 }

/-- Going to the background fails and clears the property, although the envelope runs on. -/
theorem properties_kept_iff_of_hampered :
    ¬hampered.properties.Settled 1000 false ∧
      (opened.session.transition Puppet.host .default .background 1000 hampered).session =
        opened.session ∧
      (opened.session.transition Puppet.host .default .background 1000 hampered).host.properties =
        hampered.properties.beginEnvelope 1000 false := by
  have failed : (opened.session.transition Puppet.host .default .background 1000 hampered).result =
      .failed := by decide +kernel
  have unsettled : ¬hampered.properties.Settled 1000 false := by decide +kernel
  have ended : (opened.session.buildFinal Puppet.host .background 1000 hampered).1.isOk = true := by
    decide +kernel
  have prepared : (prepare Puppet.host .background 1000
      (opened.session.buildFinal Puppet.host .background 1000 hampered).2).1.isOk = true := by
    decide +kernel
  obtain ⟨same, _, kept, cleared⟩ :=
    properties_kept_iff Puppet.host_keeps opened.session hampered failed
  rw [ended, prepared] at kept
  exact ⟨unsettled, same, cleared.resolve_left fun same =>
    absurd (kept.mp same) (by rintro (⟨⟨⟩⟩ | ⟨⟨⟩⟩ | settled); exact unsettled settled)⟩

/-- The properties change in a transition that fails. -/
theorem properties_lost :
    (opened.session.transition Puppet.host .default .background 1000 hampered).result = .failed ∧
      (opened.session.transition Puppet.host .default .background 1000 hampered).session.active =
        opened.session.active ∧
      opened.session.active.isSome ∧
      (opened.session.transition Puppet.host .default .background 1000 hampered).host.properties ≠
        hampered.properties := by
  decide +kernel

end Session

end Outbox
