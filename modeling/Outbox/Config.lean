import Outbox.Json.Record
import Outbox.Text.Blank

/-! # Configuration

How much is stored, how often and how long a delivery is tried, and how sessions are cut. A
configuration has a default for every field; it can be read from a record or from the environment.
-/

namespace Outbox

/-- The configuration. -/
structure Config where
  storageDir : String
  baseUrl : String
  maxStoredPayloads : Word64
  maxCachedSnapshots : Word64
  workerThreads : Word64
  /-- The delay before the first retry, in milliseconds. -/
  retryInitialDelay : Word64
  /-- The longest delay before a retry, in milliseconds. -/
  retryMaxDelay : Word64
  maxRetryCount : Word32
  /-- At this age in milliseconds a delivery is dropped. -/
  maxPendingAge : Millis
  /-- The first pause after a rejection for sending too much, in milliseconds, if the collector
      names none. -/
  rateLimitDefaultCooldown : Word64
  rateLimitMaxCooldown : Word64
  /-- How long a request may take, in seconds. -/
  requestTimeout : Word64
  /-- The time between two checkpoints of the running envelope, in milliseconds. -/
  periodicCacheInterval : Word64
  /-- The host cannot end a session that is younger than this, in milliseconds. -/
  minManualSession : Millis
  backgroundActivityEnabled : Bool
  deriving Repr, DecidableEq

namespace Config

def default : Config where
  storageDir := "./.telemetry"
  baseUrl := "https://collector.localhost"
  maxStoredPayloads := 500
  maxCachedSnapshots := 100
  workerThreads := 4
  retryInitialDelay := 1000
  retryMaxDelay := 60000
  maxRetryCount := 10
  maxPendingAge := 604800000
  rateLimitDefaultCooldown := 3000
  rateLimitMaxCooldown := 300000
  requestTimeout := 30
  periodicCacheInterval := 2000
  minManualSession := 5000
  backgroundActivityEnabled := true

instance : Inhabited Config := ⟨default⟩

/-- `a * b`, stopping at the largest number of 64 bits. -/
def product (a b : Word64) : Word64 := .clamp (a.val * b.val) Word64.bounds

/-- `2 ^ n`, stopping at the largest number of 64 bits. -/
def power (n : Nat) : Word64 :=
  if n < 64 then .clamp (Int.pow 2 n) Word64.bounds else 18446744073709551615

/-- A delay that doubles with every failure after the first, up to a limit. -/
def backoff (initial max : Word64) (failures : Word32) : Word64 :=
  let delay := product initial (power (failures.toNat - 1))
  if delay.val ≤ max.val then delay else max

/-- The delay before the next attempt, after so many failures. -/
def retryDelay (c : Config) (failures : Word32) : Word64 :=
  backoff c.retryInitialDelay c.retryMaxDelay failures

def subdirectory (dir name : String) : String :=
  if dir.isEmpty || dir.toList.getLast? == some '/' then dir ++ name else dir ++ "/" ++ name

def pendingDir (c : Config) : String := subdirectory c.storageDir "pending"

def snapshotDir (c : Config) : String := subdirectory c.storageDir "snapshots"

/-! ## The environment -/

def readBool? (s : String) : Option Bool :=
  if s == "true" then some true else if s == "false" then some false else none

/-- The value of a variable, read by `f` without white space around it, or `old` if it is absent
    or makes no sense. -/
def override {α : Type} (lookup : String → Option String) (name : String)
    (f : String → Option α) (old : α) : α :=
  match lookup name with
  | none => old
  | some raw => (f (Text.trim raw)).getD old

def readNumber? {lo hi : Int} (s : String) : Option (Ranged lo hi) :=
  Text.Decimal.readRanged? s.toList

/-- The configuration of an environment. There is always at least one worker. -/
def ofEnvironment (lookup : String → Option String) : Config :=
  let get {α : Type} (name : String) (f : String → Option α) (old : α) : α :=
    override lookup ("TELEMETRY_" ++ name) f old
  let workers : Word64 := get "WORKER_THREADS" readNumber? default.workerThreads
  { storageDir := (lookup "TELEMETRY_STORAGE_DIR").getD default.storageDir
    baseUrl := (lookup "TELEMETRY_BASE_URL").getD default.baseUrl
    maxStoredPayloads := get "MAX_STORED_PAYLOADS" readNumber? default.maxStoredPayloads
    maxCachedSnapshots := get "MAX_CACHED_SNAPSHOTS" readNumber? default.maxCachedSnapshots
    workerThreads := if workers.val = 0 then 1 else workers
    retryInitialDelay := get "RETRY_INITIAL_DELAY_MS" readNumber? default.retryInitialDelay
    retryMaxDelay := get "RETRY_MAX_DELAY_MS" readNumber? default.retryMaxDelay
    maxRetryCount := get "MAX_RETRY_COUNT" readNumber? default.maxRetryCount
    maxPendingAge := get "MAX_PENDING_AGE_MS" readNumber? default.maxPendingAge
    rateLimitDefaultCooldown :=
      get "RATE_LIMIT_DEFAULT_COOLDOWN_MS" readNumber? default.rateLimitDefaultCooldown
    rateLimitMaxCooldown :=
      get "RATE_LIMIT_MAX_COOLDOWN_MS" readNumber? default.rateLimitMaxCooldown
    requestTimeout := get "REQUEST_TIMEOUT_SECS" readNumber? default.requestTimeout
    periodicCacheInterval :=
      get "PERIODIC_CACHE_INTERVAL_MS" readNumber? default.periodicCacheInterval
    minManualSession := get "MIN_MANUAL_SESSION_MS" readNumber? default.minManualSession
    backgroundActivityEnabled :=
      get "BACKGROUND_ACTIVITY_ENABLED" readBool? default.backgroundActivityEnabled }

/-! ## The record -/

def fieldNames : List String :=
  ["storage_dir", "base_url", "max_stored_payloads", "max_cached_snapshots", "worker_threads",
    "retry_initial_delay_ms", "retry_max_delay_ms", "max_retry_count", "max_pending_age_ms",
    "rate_limit_default_cooldown_ms", "rate_limit_max_cooldown_ms", "request_timeout_secs",
    "periodic_cache_interval_ms", "min_manual_session_ms", "background_activity_enabled"]

/-- The values of the record in the order of its fields. -/
def fieldValues (c : Config) : List Json :=
  [.ofString c.storageDir, .ofString c.baseUrl, .ofInt c.maxStoredPayloads.val,
    .ofInt c.maxCachedSnapshots.val, .ofInt c.workerThreads.val, .ofInt c.retryInitialDelay.val,
    .ofInt c.retryMaxDelay.val, .ofInt c.maxRetryCount.val, .ofInt c.maxPendingAge.val,
    .ofInt c.rateLimitDefaultCooldown.val, .ofInt c.rateLimitMaxCooldown.val,
    .ofInt c.requestTimeout.val, .ofInt c.periodicCacheInterval.val, .ofInt c.minManualSession.val,
    .bool c.backgroundActivityEnabled]

def toJson (c : Config) : Json := .record (fieldNames.zip c.fieldValues)

/-- The configuration of a record. Absent fields have their defaults. -/
def ofJson? (j : Json) : Option Config :=
  match Json.fields? fieldNames j with
  | some ⟨_, [dir, url, stored, cached, workers, first, longest, retries, age, cooldown,
      cooldownMax, timeout, interval, manual, background]⟩ => do
    let d := default
    let storageDir ← Json.defaulted? Json.asString? d.storageDir dir
    let baseUrl ← Json.defaulted? Json.asString? d.baseUrl url
    let maxStoredPayloads ← Json.defaulted? Json.asRanged? d.maxStoredPayloads stored
    let maxCachedSnapshots ← Json.defaulted? Json.asRanged? d.maxCachedSnapshots cached
    let workerThreads ← Json.defaulted? Json.asRanged? d.workerThreads workers
    let retryInitialDelay ← Json.defaulted? Json.asRanged? d.retryInitialDelay first
    let retryMaxDelay ← Json.defaulted? Json.asRanged? d.retryMaxDelay longest
    let maxRetryCount ← Json.defaulted? Json.asRanged? d.maxRetryCount retries
    let maxPendingAge ← Json.defaulted? Json.asRanged? d.maxPendingAge age
    let rateLimitDefaultCooldown ←
      Json.defaulted? Json.asRanged? d.rateLimitDefaultCooldown cooldown
    let rateLimitMaxCooldown ← Json.defaulted? Json.asRanged? d.rateLimitMaxCooldown cooldownMax
    let requestTimeout ← Json.defaulted? Json.asRanged? d.requestTimeout timeout
    let periodicCacheInterval ← Json.defaulted? Json.asRanged? d.periodicCacheInterval interval
    let minManualSession ← Json.defaulted? Json.asRanged? d.minManualSession manual
    let backgroundActivityEnabled ←
      Json.defaulted? Json.asBool? d.backgroundActivityEnabled background
    pure { storageDir, baseUrl, maxStoredPayloads, maxCachedSnapshots, workerThreads,
           retryInitialDelay, retryMaxDelay, maxRetryCount, maxPendingAge,
           rateLimitDefaultCooldown, rateLimitMaxCooldown, requestTimeout, periodicCacheInterval,
           minManualSession, backgroundActivityEnabled }
  | _ => none

def encode (c : Config) : Bytes := c.toJson.render

def decode? (b : Bytes) : Option Config := (Json.read? b).bind ofJson?

end Config

end Outbox
