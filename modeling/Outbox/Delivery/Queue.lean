import Outbox.Delivery.Pending
import Outbox.Storage.Store

/-! # The retry queue

The deliveries that the collector has not accepted, the oldest first for each endpoint. Each one is
written to the store before it is visible here and deleted from the store when it leaves, so that
the next process finds what this one did not finish.
-/

namespace Outbox

open Storage (Key Store StoreError)

/-- The retry queue. -/
structure Queue where
  store : Store
  entries : PerEndpoint (List Pending)
  deriving Repr, DecidableEq

namespace Queue

/-- The queue over a store before anything is loaded. -/
def ofStore (store : Store) : Queue := ⟨store, .const []⟩

/-- The deliveries to one endpoint, the oldest first. -/
def pending (q : Queue) (e : Endpoint) : List Pending := q.entries.get e

def get? (q : Queue) (e : Endpoint) (id : String) : Option Pending :=
  (q.pending e).find? fun p => p.id == id

/-- There is a delivery to the endpoint with this id. -/
def contains (q : Queue) (e : Endpoint) (id : String) : Bool := (q.get? e id).isSome

def endpoints (q : Queue) : List Endpoint := Endpoint.all.filter fun e => !(q.pending e).isEmpty

def size (q : Queue) : Nat := (Endpoint.all.flatMap q.pending).length

/-- Puts a delivery in front of the first one that was made after it. -/
def insertSorted (p : Pending) : List Pending → List Pending
  | [] => [p]
  | q :: qs => if p.isBefore q then p :: q :: qs else q :: insertSorted p qs

/-- Replaces the delivery with the same id, or inserts a new one in its place. -/
def insert (p : Pending) (ps : List Pending) : List Pending :=
  if ps.any fun q => q.id == p.id then
    -- ids are unique in a list, so at most one entry changes
    ps.map fun q => if q.id == p.id then p else q
  else insertSorted p ps

def remember (q : Queue) (p : Pending) : Queue :=
  { q with entries := q.entries.set p.endpoint (insert p (q.pending p.endpoint)) }

def forget (q : Queue) (e : Endpoint) (id : String) : Queue :=
  { q with entries := q.entries.set e ((q.pending e).filter fun p => p.id != id) }

/-- The queue without the deliveries with these keys in memory. -/
def forgetAll (q : Queue) (keys : List Key) : Queue :=
  keys.foldl (fun q key => q.forget key.kind.endpoint key.id) q

/-- Stores a delivery and puts it in the queue. It is there even if storing fails, so that this
    process tries to send it. What the store deletes to make room leaves the queue. -/
def save (q : Queue) (p : Pending) : Queue × List Report × Except StoreError Unit :=
  match p.key? with
  | none => (q.remember p, [], .ok ())
  | some key =>
    let (store, reports, result) := q.store.putBytes key p.encode
    let q := ({ q with store } : Queue).remember p
    match result with
    | .ok pruned => (q.forgetAll pruned, reports, .ok ())
    | .error e => (q, reports, .error e)

/-- Takes a delivery from the queue and from the disk. -/
def remove (q : Queue) (p : Pending) : Queue × List Report :=
  let (store, reports) :=
    match p.key? with
    | none => (q.store, [])
    | some key => q.store.delete key
  (({ q with store } : Queue).forget p.endpoint p.id, reports)

/-- Counts a failed attempt and stores the new count. -/
def recordFailure (q : Queue) (p : Pending) (now : Millis) : Queue × List Report × Pending :=
  let p := p.failed now
  let (q, reports, _) := q.save p
  (q, reports, p)

/-- What is found when one stored delivery is loaded. -/
inductive Found where
  | pending (p : Pending)
  | missing
  /-- Something that will never be a delivery. -/
  | corrupt
  /-- Something that could not be read this time. -/
  | unreadable
  deriving Repr, DecidableEq

def find (store : Store) (key : Key) : List Report × Found :=
  let report (what cause : String) : Report :=
    ⟨.payloadLoadFail, what ++ " pending delivery " ++ key.name, some (.error cause)⟩
  match store.load key with
  | (reports, .error _) => (reports, .unreadable)
  | (reports, .ok none) => (reports, .missing)
  | (reports, .ok (some node)) =>
    match node.payload? with
    | .error .corrupt =>
      (reports ++ [report "Corrupt" Storage.FileError.corrupt.name], .corrupt)
    | .error e => (reports ++ [report "Failed to read" e.name], .unreadable)
    | .ok b =>
      match Pending.decode? b with
      | some p => (reports, .pending p)
      | none => (reports ++ [report "Undecodable" "json"], .corrupt)

/-- Loads the deliveries with these keys. Those in memory stay as they are, and what will never be
    a delivery is deleted. The number of new deliveries is returned. -/
def loadKeys (q : Queue) : List Key → Queue × List Report × Nat
  | [] => (q, [], 0)
  | key :: keys =>
    let (reports, found) := find q.store key
    let (q, deleting, new) : Queue × List Report × Nat :=
      match found with
      | .pending p =>
        if q.contains p.endpoint p.id then (q, [], 0) else (q.remember p, [], 1)
      | .corrupt =>
        let (store, deleting) := q.store.delete key
        ({ q with store }, deleting, 0)
      | .missing | .unreadable => (q, [], 0)
    let (q, others, n) := q.loadKeys keys
    (q, reports ++ deleting ++ others, new + n)

def load (q : Queue) : Queue × List Report × Nat :=
  let (keys, listing) := q.store.stored
  let (q, reports, n) := q.loadKeys keys
  (q, listing ++ reports, n)

end Queue

end Outbox
