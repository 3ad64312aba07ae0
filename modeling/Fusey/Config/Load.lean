import Fusey.GoLib.Fmt
import Fusey.GoLib.Machine

/-!
Contract: the configuration that `config.Load` resolves from the environment
(`internal/config/config.go`).

Owns the settings with their defaults, the variables that override them and the
errors of malformed ones, and the ranges of the integers that a successful load
returns.

`strconv.ParseFloat` and `time.ParseDuration` are parameters: their results only
reach the compaction threshold and the persist interval.
-/

set_option autoImplicit false

namespace Fusey

open GoFmt GoInt

/-- The environment; a variable that is not set reads as the empty string. -/
abbrev Environment := String → List Char

/-- The parsers of the standard library that `Load` calls on text that is neither
an integer nor a Boolean, and the threshold `0.3`. -/
structure TextParsers where
  Threshold : Type
  parseFloat : List Char → Except NumError Threshold
  parseDuration : List Char → Except (List Char) Int
  defaultCompactionThreshold : Threshold

/-- The errors of `Load`. All but the last name the variable. -/
inductive ConfigError where
  | number (key : String) (err : NumError)
  | duration (key : String) (err : List Char)
  | maxSizeNotPositive
deriving DecidableEq, Repr

/-- `config.Config`. -/
structure Settings (parsers : TextParsers) where
  chunkSize : Int
  blockSize : Int
  maxFSSize : Int
  cacheDir : List Char
  bucket : List Char
  endpoint : List Char
  region : List Char
  accessKey : List Char
  secretKey : List Char
  forcePathStyle : Bool
  keyPrefix : List Char
  brokerURL : List Char
  brokerAuthHeader : List Char
  brokerAuthValue : List Char
  compactionThreshold : parsers.Threshold
  persistInterval : Int
  allowOther : Bool

/-- The value of a variable, or a default when it is empty. -/
def Environment.textOr (env : Environment) (key : String) (default : List Char) : List Char :=
  if env key = [] then default else env key

/-- `parseInt64Env`, `parseInt32Env`, `parseFloat64Env`, `parseBoolEnv` and
`parseDurationEnv`: an empty variable keeps the default. -/
def Environment.parsed {α ε : Type} (env : Environment) (parse : List Char → Except ε α)
    (wrap : String → ε → ConfigError) (key : String) (default : α) : Except ConfigError α :=
  if env key = [] then .ok default else (parse (env key)).mapError (wrap key)

/-- `Load`. -/
def load (parsers : TextParsers) (env : Environment) : Except ConfigError (Settings parsers) := do
  let chunkSize ← env.parsed (parseInt 64) .number "FUSEY_CHUNK_SIZE" (64 * 1024 * 1024)
  let blockSize ← env.parsed (parseInt 32) .number "FUSEY_BLOCK_SIZE" 4096
  let maxFSSize ← env.parsed (parseInt 64) .number "FUSEY_MAX_SIZE" (1024 * 1024 * 1024 * 1024)
  if maxFSSize ≤ 0 then throw .maxSizeNotPositive
  let forcePathStyle ← env.parsed parseBool .number "FUSEY_FORCE_PATH_STYLE" false
  let compactionThreshold ← env.parsed parsers.parseFloat .number "FUSEY_COMPACTION_THRESHOLD"
    parsers.defaultCompactionThreshold
  let persistInterval ← env.parsed parsers.parseDuration .duration "FUSEY_PERSIST_INTERVAL"
    (30 * 1000000000)
  let allowOther ← env.parsed parseBool .number "FUSEY_ALLOW_OTHER" true
  return {
    chunkSize, blockSize, maxFSSize, forcePathStyle
    compactionThreshold, persistInterval, allowOther
    cacheDir := env.textOr "FUSEY_CACHE_DIR" "/var/cache/fusey".toList
    bucket := env "FUSEY_BUCKET"
    endpoint := env "FUSEY_ENDPOINT"
    region := env.textOr "FUSEY_REGION" "us-east-1".toList
    accessKey := env "FUSEY_ACCESS_KEY"
    secretKey := env "FUSEY_SECRET_KEY"
    keyPrefix := env "FUSEY_PREFIX"
    brokerURL := env "FUSEY_BROKER_URL"
    brokerAuthHeader := env.textOr "FUSEY_BROKER_AUTH_HEADER" "X-SESSION-API-KEY".toList
    brokerAuthValue := env "FUSEY_BROKER_AUTH_VALUE" }

/-! ### What a successful load returns -/

/-- A parsed variable is the default or a value of the parser. -/
theorem Environment.parsed_ok {α ε : Type} {env : Environment} {parse : List Char → Except ε α}
    {wrap : String → ε → ConfigError} {key : String} {default value : α}
    (succeeded : env.parsed parse wrap key default = .ok value) :
    value = default ∨ parse (env key) = .ok value := by
  unfold Environment.parsed at succeeded
  split_ifs at succeeded
  · exact Or.inl (Except.ok.inj succeeded).symm
  · cases read : parse (env key) with
    | error reason =>
        rw [read] at succeeded
        cases succeeded
    | ok found =>
        rw [read] at succeeded
        exact Or.inr (congrArg Except.ok (Except.ok.inj succeeded))

/-- A bind that succeeds. -/
theorem ok_of_bind {ε α β : Type} {x : Except ε α} {f : α → Except ε β} {b : β}
    (succeeded : (x >>= f) = .ok b) : ∃ a, x = .ok a ∧ f a = .ok b := by
  cases x with
  | error reason => cases succeeded
  | ok a => exact ⟨a, rfl, succeeded⟩

/-- The integers of a loaded configuration are of their type, and the capacity is
positive. -/
theorem load_ranges {parsers : TextParsers} {env : Environment} {settings : Settings parsers}
    (loaded : load parsers env = .ok settings) :
    IsInt64 settings.chunkSize ∧
      (-2147483648 ≤ settings.blockSize ∧ settings.blockSize < 2147483648) ∧
      0 < settings.maxFSSize ∧ settings.maxFSSize < 9223372036854775808 := by
  unfold load at loaded
  obtain ⟨chunkSize, chunk, loaded⟩ := ok_of_bind loaded
  obtain ⟨blockSize, block, loaded⟩ := ok_of_bind loaded
  obtain ⟨maxFSSize, limit, loaded⟩ := ok_of_bind loaded
  have chunkRange : IsInt64 chunkSize := by
    rcases Environment.parsed_ok chunk with rfl | read
    · decide
    · exact parseInt_range read
  have blockRange : -2147483648 ≤ blockSize ∧ blockSize < 2147483648 := by
    rcases Environment.parsed_ok block with rfl | read
    · decide
    · exact parseInt_range read
  have limitRange : maxFSSize < 9223372036854775808 := by
    rcases Environment.parsed_ok limit with rfl | read
    · decide
    · exact (parseInt_range read).2
  split_ifs at loaded with notPositive
  · obtain ⟨_, refused, -⟩ := ok_of_bind loaded
    cases refused
  · obtain ⟨-, -, loaded⟩ := ok_of_bind loaded
    obtain ⟨forcePathStyle, -, loaded⟩ := ok_of_bind loaded
    obtain ⟨compactionThreshold, -, loaded⟩ := ok_of_bind loaded
    obtain ⟨persistInterval, -, loaded⟩ := ok_of_bind loaded
    obtain ⟨allowOther, -, loaded⟩ := ok_of_bind loaded
    cases loaded
    exact ⟨chunkRange, blockRange, not_le.mp notPositive, limitRange⟩

end Fusey
