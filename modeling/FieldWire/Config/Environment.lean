import FieldWire.Config.Basic

/-!
# Settings from the environment

Four variables change a setting of the default configuration. They are looked at in a fixed order,
and the first that cannot be read is reported.
-/

namespace FieldWire.Config

/-- The variable for the file of the schema. -/
def definitionsPathVariable : String := "LEDGER_CODEC_DEFINITIONS_PATH"

/-- The variable for the limit on nesting. -/
def maxDepthVariable : String := "LEDGER_CODEC_MAX_NESTING_DEPTH"

/-- The variable for the limit on the size of an input. -/
def maxInputVariable : String := "LEDGER_CODEC_MAX_INPUT_SIZE"

/-- The variable for the log level. -/
def logLevelVariable : String := "LEDGER_CODEC_LOG_LEVEL"

/-- The number that a variable holds, or a default when it is not set. -/
def numberFrom (environment : String → Option String) (name : String) (fallback : Nat) :
    Except Error Nat :=
  match environment name with
  | none => .ok fallback
  | some text =>
    match Text.readUnsigned 10 Text.maxUInt64 text.toList with
    | .ok n => .ok n
    | .error fault => .error (.config (.invalidNumber name text fault))

/-- The log level that a variable holds, or a default when it is not set. -/
def levelFrom (environment : String → Option String) (name : String) (fallback : LogLevel) :
    Except Error LogLevel :=
  match environment name with
  | none => .ok fallback
  | some text =>
    match LogLevel.ofText? text with
    | some level => .ok level
    | none => .error (.config (.invalidLevel name text))

/-- The default configuration with the settings of an environment. -/
def ofEnvironment (environment : String → Option String) : Except Error Config := do
  let depth ← numberFrom environment maxDepthVariable defaultMaxDepth
  let size ← numberFrom environment maxInputVariable defaultMaxInput
  let level ← levelFrom environment logLevelVariable defaultLogging.level
  return { registry := ⟨environment definitionsPathVariable⟩
           limits := ⟨depth, size⟩
           logging := { defaultLogging with level := level } }

end FieldWire.Config
