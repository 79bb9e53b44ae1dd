import Outbox.Kind

/-! # Endpoints of the collector

Each kind of telemetry goes to an endpoint of its own, and one more endpoint only hands out
configuration. `PerEndpoint` is a table with one entry for each of them; writing one entry leaves
the others alone.
-/

namespace Outbox

/-- A place of the collector that accepts or hands out data. -/
inductive Endpoint where
  | sessions
  | logs
  | crashes
  | network
  /-- Hands out configuration and takes nothing. -/
  | config
  deriving Repr, DecidableEq, Inhabited

namespace Endpoint

/-- All endpoints, in the order in which a flush visits them. -/
def all : List Endpoint := [.sessions, .logs, .crashes, .network, .config]

def name : Endpoint → String
  | sessions => "sessions"
  | logs => "logs"
  | crashes => "crashes"
  | network => "network"
  | config => "config"

def ofName? (s : String) : Option Endpoint := all.find? fun e => e.name == s

/-- The path of an endpoint below the address of the collector. -/
def path (e : Endpoint) : String := "v2/" ++ e.name

/-- The kind of telemetry that an endpoint takes. -/
def kind? : Endpoint → Option Kind
  | sessions => some .session
  | logs => some .log
  | crashes => some .crash
  | network => some .network
  | config => none

theorem mem_all (e : Endpoint) : e ∈ all := by
  cases e <;> decide

theorem ofName?_name (e : Endpoint) : ofName? e.name = some e := by
  cases e <;> decide

end Endpoint

def Kind.endpoint : Kind → Endpoint
  | .crash => .crashes
  | .session => .sessions
  | .log => .logs
  | .network => .network

/-- A kind goes to an endpoint exactly when that endpoint takes it. -/
theorem Endpoint.kind?_eq_some_iff {e : Endpoint} {k : Kind} :
    e.kind? = some k ↔ k.endpoint = e := by
  cases e <;> cases k <;> simp [kind?, Kind.endpoint]

/-- One entry for each endpoint. -/
structure PerEndpoint (α : Type) where
  sessions : α
  logs : α
  crashes : α
  network : α
  config : α
  deriving Repr, DecidableEq

namespace PerEndpoint

variable {α : Type}

def const (a : α) : PerEndpoint α := ⟨a, a, a, a, a⟩

def get (t : PerEndpoint α) : Endpoint → α
  | .sessions => t.sessions
  | .logs => t.logs
  | .crashes => t.crashes
  | .network => t.network
  | .config => t.config

/-- The table with another entry for one endpoint. -/
def set (t : PerEndpoint α) (e : Endpoint) (a : α) : PerEndpoint α :=
  match e with
  | .sessions => { t with sessions := a }
  | .logs => { t with logs := a }
  | .crashes => { t with crashes := a }
  | .network => { t with network := a }
  | .config => { t with config := a }

@[simp]
theorem get_const (a : α) (e : Endpoint) : (const a).get e = a := by
  cases e <;> rfl

@[simp]
theorem get_set_self (t : PerEndpoint α) (e : Endpoint) (a : α) : (t.set e a).get e = a := by
  cases e <;> rfl

theorem get_set_of_ne (t : PerEndpoint α) {e f : Endpoint} (a : α) (h : f ≠ e) :
    (t.set e a).get f = t.get f := by
  cases e <;> cases f <;> first | rfl | exact absurd rfl h

@[grind =]
theorem get_set (t : PerEndpoint α) (e f : Endpoint) (a : α) :
    (t.set e a).get f = if f = e then a else t.get f := by
  split
  · next h => rw [h, get_set_self]
  · next h => exact get_set_of_ne t a h

theorem ext_get {s t : PerEndpoint α} (h : ∀ e, s.get e = t.get e) : s = t := by
  cases s
  cases t
  simp only [mk.injEq]
  exact ⟨h .sessions, h .logs, h .crashes, h .network, h .config⟩

end PerEndpoint

end Outbox
