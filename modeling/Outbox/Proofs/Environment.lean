import Outbox.Config
import Outbox.Proofs.Blanks
import Outbox.Proofs.Grammar

/-! # Configurations from the environment

Each field of a configuration has a variable of its own. A variable holds a text as it is, or a
number or a truth value that may have white space around it. Reading the variables that show a
configuration gives it back. What a variable holds decides its own field only, and a variable that
says nothing leaves its field at the default.
-/

namespace Outbox

namespace Text.Decimal

theorem Numeral.not_blank {cs : List Char} {i : Int} (numeral : Numeral cs i) :
    ∀ c ∈ cs, isBlank c = false := by
  have digit {c : Char} (digit : c.isDigit = true) : isBlank c = false := by
    have bounds := isDigit_iff.mp digit
    simp only [isBlank, Bool.or_eq_false_iff, Bool.and_eq_false_iff, decide_eq_false_iff_not,
      beq_eq_false_iff_ne]
    omega
  cases numeral with
  | unsigned digits => exact fun c member => digit (digits.2 c member)
  | plus digits =>
    exact List.forall_mem_cons.mpr ⟨by decide, fun c member => digit (digits.2 c member)⟩
  | minus digits =>
    exact List.forall_mem_cons.mpr ⟨by decide, fun c member => digit (digits.2 c member)⟩

end Text.Decimal

namespace Config

open Text (Padded isBlank)

/-- What a variable of the environment holds. -/
inductive Form where
  | text
  | number (lo hi : Int)
  | truth

namespace Form

def Value : Form → Type
  | text => String
  | number lo hi => Ranged lo hi
  | truth => Bool

/-- A value as it is shown. -/
def display : (f : Form) → f.Value → String
  | text, s => s
  | number _ _, r => decimal r.val
  | truth, true => "true"
  | truth, false => "false"

/-- The text shows the value. Around numbers and truth values there may be white space. -/
def Shows : (f : Form) → String → f.Value → Prop
  | text, raw, s => raw = s
  | number lo hi, raw, r => Padded isBlank ((number lo hi).display r).toList raw.toList
  | truth, raw, b => Padded isBlank (truth.display b).toList raw.toList

/-- The text tells the value, also where it has other signs or zeros than the shown number. -/
def Tells : (f : Form) → String → f.Value → Prop
  | number lo _, raw, r => ∃ cs, Padded isBlank cs raw.toList ∧
      Text.Decimal.Numeral cs r.val ∧ (0 ≤ lo → cs.head? ≠ some '-')
  | f, raw, v => f.Shows raw v

def read? : (f : Form) → String → Option f.Value
  | text, raw => some raw
  | number _ _, raw => Config.readNumber? (Text.trim raw)
  | truth, raw => Config.readBool? (Text.trim raw)

variable {raw : String}

theorem readNumber?_eq_some_iff {lo hi : Int} {r : Ranged lo hi} :
    Config.readNumber? (Text.trim raw) = some r ↔ ∃ cs, Padded isBlank cs raw.toList ∧
      Text.Decimal.Numeral cs r.val ∧ (0 ≤ lo → cs.head? ≠ some '-') := by
  rw [Config.readNumber?, Text.toList_trim, Text.Decimal.readRanged?_eq_some_iff]
  constructor
  · exact fun read => ⟨_, Text.padded_strip isBlank raw.toList, read⟩
  · rintro ⟨cs, padded, numeral, sign⟩
    rw [Text.strip_of_padded (.of_forall numeral.not_blank) padded]
    exact ⟨numeral, sign⟩

theorem readBool?_eq_some_iff {b : Bool} : Config.readBool? (Text.trim raw) = some b ↔
    Padded isBlank (truth.display b).toList raw.toList := by
  have tight : Text.Tight isBlank (truth.display b).toList := by
    have letters (b : Bool) : ((truth.display b).toList.all fun c => !isBlank c) = true := by
      cases b <;> decide
    exact .of_forall fun c member => by simpa using List.all_eq_true.mp (letters b) c member
  have whole {s : String} : Config.readBool? s = some b ↔ s = truth.display b := by
    cases b <;> simp only [Config.readBool?, display] <;> grind
  rw [whole, ← String.toList_inj, Text.toList_trim, Text.strip_eq_iff, and_iff_right tight]

/-- Values are read from the texts that say them. -/
theorem read?_eq_some_iff (f : Form) {v : f.Value} : f.read? raw = some v ↔ f.Tells raw v := by
  cases f with
  | text => exact Option.some_inj
  | number lo hi => exact readNumber?_eq_some_iff
  | truth => exact readBool?_eq_some_iff

theorem Shows.tells {f : Form} {v : f.Value} (shown : f.Shows raw v) : f.Tells raw v := by
  cases f with
  | text | truth => exact shown
  | number lo hi =>
    have written : ((number lo hi).display v).toList = Text.Decimal.ofInt v.val :=
      String.toList_ofList
    rw [Shows, written] at shown
    exact ⟨_, shown, Text.Decimal.readRanged?_eq_some_iff.mp (Text.Decimal.readRanged?_ofInt v)⟩

/-- A value as it is shown, with white space where it may stand. -/
def spaced (front back : String) : (f : Form) → f.Value → String
  | text, s => s
  | number lo hi, r => front ++ (number lo hi).display r ++ back
  | truth, b => front ++ truth.display b ++ back

theorem shows_spaced {front back : String} (before : ∀ c ∈ front.toList, isBlank c = true)
    (after : ∀ c ∈ back.toList, isBlank c = true) (f : Form) (v : f.Value) :
    f.Shows (f.spaced front back v) v := by
  cases f with
  | text => rfl
  | number | truth =>
    exact ⟨front.toList, back.toList, before, after, by simp only [spaced, String.toList_append]⟩

end Form

/-- A variable of the environment, and the field that it sets. -/
structure Setting where
  name : String
  form : Form
  get : Config → form.Value
  /-- What becomes of a value that was read. -/
  adopt : form.Value → form.Value

/-- The variables of the environment. Nobody works with no worker at all. -/
def settings : List Setting :=
  [⟨"TELEMETRY_STORAGE_DIR", .text, storageDir, id⟩,
    ⟨"TELEMETRY_BASE_URL", .text, baseUrl, id⟩,
    ⟨"TELEMETRY_MAX_STORED_PAYLOADS", .number 0 18446744073709551615, maxStoredPayloads, id⟩,
    ⟨"TELEMETRY_MAX_CACHED_SNAPSHOTS", .number 0 18446744073709551615, maxCachedSnapshots, id⟩,
    ⟨"TELEMETRY_WORKER_THREADS", .number 0 18446744073709551615, workerThreads,
      fun workers => if workers.val = 0 then (1 : Word64) else workers⟩,
    ⟨"TELEMETRY_RETRY_INITIAL_DELAY_MS", .number 0 18446744073709551615, retryInitialDelay, id⟩,
    ⟨"TELEMETRY_RETRY_MAX_DELAY_MS", .number 0 18446744073709551615, retryMaxDelay, id⟩,
    ⟨"TELEMETRY_MAX_RETRY_COUNT", .number 0 4294967295, maxRetryCount, id⟩,
    ⟨"TELEMETRY_MAX_PENDING_AGE_MS", .number (-9223372036854775808) 9223372036854775807,
      maxPendingAge, id⟩,
    ⟨"TELEMETRY_RATE_LIMIT_DEFAULT_COOLDOWN_MS", .number 0 18446744073709551615,
      rateLimitDefaultCooldown, id⟩,
    ⟨"TELEMETRY_RATE_LIMIT_MAX_COOLDOWN_MS", .number 0 18446744073709551615,
      rateLimitMaxCooldown, id⟩,
    ⟨"TELEMETRY_REQUEST_TIMEOUT_SECS", .number 0 18446744073709551615, requestTimeout, id⟩,
    ⟨"TELEMETRY_PERIODIC_CACHE_INTERVAL_MS", .number 0 18446744073709551615,
      periodicCacheInterval, id⟩,
    ⟨"TELEMETRY_MIN_MANUAL_SESSION_MS", .number (-9223372036854775808) 9223372036854775807,
      minManualSession, id⟩,
    ⟨"TELEMETRY_BACKGROUND_ACTIVITY_ENABLED", .truth, backgroundActivityEnabled, id⟩]

/-- The variables are named after the fields of the record. -/
example : settings.map Setting.name =
    fieldNames.map fun field => "TELEMETRY_" ++ field.toUpper := by decide +kernel

/-- The environment that shows a configuration, each value between the same white space. -/
def environment (front back : String) (c : Config) (name : String) : Option String :=
  (settings.find? fun s => s.name == name).map fun s => s.form.spaced front back (s.get c)

theorem environment_name (front back : String) (c : Config) : ∀ s ∈ settings,
    c.environment front back s.name = some (s.form.spaced front back (s.get c)) := by
  simp [settings, environment]

theorem override_eq {α : Type} (lookup : String → Option String) (name : String)
    (f : String → Option α) (old : α) :
    override lookup name f old = ((lookup name).bind fun raw => f (Text.trim raw)).getD old := by
  unfold override
  cases lookup name <;> rfl

theorem getD_eq (raw : Option String) (old : String) :
    raw.getD old = (raw.bind (Form.read? .text)).getD old := by
  cases raw <;> rfl

theorem workerThreads_ofEnvironment (lookup : String → Option String) :
    let workers : Word64 :=
      override lookup "TELEMETRY_WORKER_THREADS" readNumber? default.workerThreads
    (ofEnvironment lookup).workerThreads = if workers.val = 0 then 1 else workers := rfl

/-- A field has the value that its variable holds, or else its default. -/
theorem get_ofEnvironment (lookup : String → Option String) : ∀ s ∈ settings,
    s.get (ofEnvironment lookup) =
      s.adopt (((lookup s.name).bind s.form.read?).getD (s.get default)) := by
  have field {α : Type} (name : String) (f : String → Option α) (old : α) :=
    override_eq lookup name f old
  have workers := workerThreads_ofEnvironment lookup
  rw [override_eq] at workers
  rw [settings]
  simp only [List.forall_mem_cons]
  exact ⟨getD_eq _ _, getD_eq _ _, field _ _ _, field _ _ _, workers, field _ _ _, field _ _ _,
    field _ _ _, field _ _ _, field _ _ _, field _ _ _, field _ _ _, field _ _ _, field _ _ _,
    field _ _ _, List.forall_mem_nil _⟩

/-- Two configurations that agree in every field are one. -/
theorem eq_of_settings {c d : Config} (same : ∀ s ∈ settings, s.get c = s.get d) : c = d := by
  rw [settings] at same
  simp only [List.forall_mem_cons] at same
  obtain ⟨dir, url, stored, cached, workers, first, longest, retries, age, cooldown, cooldownMax,
    timeout, interval, manual, background, -⟩ := same
  cases c
  cases d
  exact mk.injEq .. ▸ ⟨dir, url, stored, cached, workers, first, longest, retries, age, cooldown,
    cooldownMax, timeout, interval, manual, background⟩

theorem adopt_get {c : Config} (manned : 1 ≤ c.workerThreads.val) :
    ∀ s ∈ settings, s.adopt (s.get c) = s.get c := by
  have workers : (if c.workerThreads.val = 0 then (1 : Word64) else c.workerThreads) =
      c.workerThreads := if_neg (by omega)
  rw [settings]
  simp only [List.forall_mem_cons]
  exact ⟨rfl, rfl, rfl, rfl, workers, rfl, rfl, rfl, rfl, rfl, rfl, rfl, rfl, rfl, rfl,
    List.forall_mem_nil _⟩

variable {lookup : String → Option String} {s : Setting} {raw : String}

theorem get_of_told (known : s ∈ settings) {v : s.form.Value} (found : lookup s.name = some raw)
    (told : s.form.Tells raw v) : s.get (ofEnvironment lookup) = s.adopt v := by
  rw [get_ofEnvironment lookup s known, found, Option.bind_some,
    (s.form.read?_eq_some_iff).mpr told, Option.getD_some]

theorem get_of_silent (known : s ∈ settings)
    (silent : ∀ raw v, lookup s.name = some raw → ¬s.form.Tells raw v) :
    s.get (ofEnvironment lookup) = s.get default := by
  have unread : (lookup s.name).bind s.form.read? = none := by
    rw [Option.bind_eq_none_iff]
    intro raw found
    rw [Option.eq_none_iff_forall_ne_some]
    exact fun v read => silent raw v found ((s.form.read?_eq_some_iff).mp read)
  rw [get_ofEnvironment lookup s known, unread, Option.getD_none,
    adopt_get (by decide) s known]

/-- The environment is read faithfully. What shows a configuration with a worker is read as that
configuration, whatever white space is around its numbers and truth values. Two environments that
differ in one variable give configurations that differ in the field of that variable at most. A
field is the value that its variable says, and the default if it says none, except that there is
always a worker. -/
theorem environment_faithful :
    (∀ c : Config, 1 ≤ c.workerThreads.val →
      (∀ front back : String, (∀ x ∈ front.toList ++ back.toList, isBlank x = true) →
        ofEnvironment (c.environment front back) = c) ∧
      ∀ lookup : String → Option String, (∀ s ∈ settings, ∃ raw, lookup s.name = some raw ∧
        s.form.Shows raw (s.get c)) → ofEnvironment lookup = c) ∧
    (∀ (lookup lookup' : String → Option String) (name : String),
      (∀ other, other ≠ name → lookup other = lookup' other) →
        ∀ s ∈ settings, s.name ≠ name →
          s.get (ofEnvironment lookup) = s.get (ofEnvironment lookup')) ∧
    ∀ lookup : String → Option String, 1 ≤ (ofEnvironment lookup).workerThreads.val ∧
      ∀ s ∈ settings,
        (∀ raw v, lookup s.name = some raw → s.form.Tells raw v →
          s.get (ofEnvironment lookup) = s.adopt v) ∧
        ((∀ raw v, lookup s.name = some raw → ¬s.form.Tells raw v) →
          s.get (ofEnvironment lookup) = s.get default) := by
  have shown (c : Config) (manned : 1 ≤ c.workerThreads.val) (lookup : String → Option String)
      (shows : ∀ s ∈ settings, ∃ raw, lookup s.name = some raw ∧ s.form.Shows raw (s.get c)) :
      ofEnvironment lookup = c := by
    refine eq_of_settings fun s known => ?_
    obtain ⟨raw, found, shown⟩ := shows s known
    rw [get_of_told known found shown.tells, adopt_get manned s known]
  refine ⟨fun c manned => ⟨fun front back blank => ?_, shown c manned⟩,
    fun lookup lookup' name agree s known other => ?_,
    fun lookup => ⟨?_, fun s known => ⟨fun raw v found told => ?_, fun silent => ?_⟩⟩⟩
  · obtain ⟨before, after⟩ := List.forall_mem_append.mp blank
    exact shown c manned _ fun s known =>
      ⟨_, environment_name front back c s known, s.form.shows_spaced before after (s.get c)⟩
  · rw [get_ofEnvironment lookup s known, get_ofEnvironment lookup' s known, agree s.name other]
  · rw [workerThreads_ofEnvironment]
    split
    · decide
    · next some_ =>
      have := (override lookup "TELEMETRY_WORKER_THREADS" readNumber?
        default.workerThreads : Word64).lo_le
      omega
  · exact get_of_told known found told
  · exact get_of_silent known silent

/-- Numbers at the ends of their ranges and a directory that is only white space; and an environment
that asks for no worker, with a sign and zeros that nobody needs. -/
theorem environment_faithful_of_extremes :
    let c : Config := { default with
      storageDir := " \n", maxStoredPayloads := 18446744073709551615, workerThreads := 1,
      maxRetryCount := 4294967295, maxPendingAge := .clamp (-9223372036854775808),
      backgroundActivityEnabled := false }
    let noWorker : String → Option String :=
      fun name => if name = "TELEMETRY_WORKER_THREADS" then some "\t+000 " else none
    ofEnvironment (c.environment "" "") = c ∧ ofEnvironment (c.environment "\u00a0" "\t\n") = c ∧
      (ofEnvironment noWorker).workerThreads = 1 ∧
      (ofEnvironment noWorker).maxRetryCount = (ofEnvironment fun _ => none).maxRetryCount := by
  intro c noWorker
  obtain ⟨shown, differ, decides⟩ := environment_faithful
  have manned : 1 ≤ c.workerThreads.val := by decide
  have blank : ∀ x ∈ "\u00a0".toList ++ "\t\n".toList, isBlank x = true :=
    List.all_eq_true.mp (by decide +kernel)
  have zero : readNumber? (Text.trim "\t+000 ") = some (0 : Word64) := by decide +kernel
  have workers := ((decides noWorker).2 settings[4] (List.getElem_mem _)).1 "\t+000 " (0 : Word64)
    rfl (Form.readNumber?_eq_some_iff.mp zero)
  have retries := differ noWorker (fun _ => none) "TELEMETRY_WORKER_THREADS"
    (fun other different => if_neg different) settings[7] (List.getElem_mem _) (by decide +kernel)
  exact ⟨(shown c manned).1 "" "" (by simp), (shown c manned).1 _ _ blank, workers, retries⟩

end Config

end Outbox
