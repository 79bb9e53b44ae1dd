/-! # Kinds of telemetry

What the host reports, how important it is to keep, and the two facts about the process and the
network that come with it. Each type has one lowercase name per value, and `ofName?` reads exactly
these names.
-/

namespace Outbox

/-- What an envelope or a delivery reports. The order is the order of importance: when the storage
    is full, kinds that come first are kept first. -/
inductive Kind where
  | crash
  | session
  | log
  | network
  deriving Repr, DecidableEq, Inhabited

namespace Kind

def all : List Kind := [.crash, .session, .log, .network]

/-- The name of a kind in file names and stored records. -/
def name : Kind → String
  | crash => "crash"
  | session => "session"
  | log => "log"
  | network => "network"

def ofName? (s : String) : Option Kind := all.find? fun k => k.name == s

/-- The place of a kind in the order of importance, from 0. -/
def rank : Kind → Nat
  | crash => 0
  | session => 1
  | log => 2
  | network => 3

theorem mem_all (k : Kind) : k ∈ all := by
  cases k <;> decide

theorem ofName?_name (k : Kind) : ofName? k.name = some k := by
  cases k <;> decide

theorem rank_inj {a b : Kind} (h : a.rank = b.rank) : a = b := by
  cases a <;> cases b <;> first | rfl | cases h

end Kind

/-- Whether the host process was in front of the user. -/
inductive ProcessState where
  | foreground
  | background
  deriving Repr, DecidableEq, Inhabited

namespace ProcessState

def all : List ProcessState := [.foreground, .background]

def name : ProcessState → String
  | foreground => "foreground"
  | background => "background"

theorem mem_all (p : ProcessState) : p ∈ all := by
  cases p <;> decide

end ProcessState

/-- Why an envelope is stored or sent. -/
inductive SnapshotType where
  | normalEnd
  | crash
  /-- A checkpoint of the running envelope, which replaces the one before. -/
  | periodic
  deriving Repr, DecidableEq, Inhabited

namespace SnapshotType

def all : List SnapshotType := [.normalEnd, .crash, .periodic]

def name : SnapshotType → String
  | normalEnd => "normal_end"
  | crash => "jvm_crash"
  | periodic => "periodic_cache"

/-- Terminal snapshots are sent, the others are only kept on disk. -/
def isTerminal : SnapshotType → Bool
  | periodic => false
  | _ => true

theorem mem_all (t : SnapshotType) : t ∈ all := by
  cases t <;> decide

end SnapshotType

/-- What is known about the network. Only `notReachable` holds sending back. -/
inductive NetworkStatus where
  | unknown
  | reachable
  | notReachable
  deriving Repr, DecidableEq, Inhabited

namespace NetworkStatus

def all : List NetworkStatus := [.unknown, .reachable, .notReachable]

def name : NetworkStatus → String
  | unknown => "unknown"
  | reachable => "reachable"
  | notReachable => "not_reachable"

theorem mem_all (n : NetworkStatus) : n ∈ all := by
  cases n <;> decide

end NetworkStatus

end Outbox
