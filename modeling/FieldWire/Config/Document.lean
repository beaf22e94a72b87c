import FieldWire.Config.Basic
import FieldWire.Json.Record
import FieldWire.Toml.Parser

/-!
# Configuration documents

A configuration is a record of three records. Each of them may be left out as a whole, but limits
need both their members and logging its first three.

A document may be a plain value or TOML text. Written as TOML, a configuration reads back
unchanged, unless a limit exceeds the largest number of TOML.
-/

namespace FieldWire.Config

variable (surplus : Bool)

/-- A text that may be absent or null. -/
def optionalText? : Option Json → Option (Option String)
  | none => some none
  | some .null => some none
  | some (.str text) => some (some text)
  | some _ => none

/-- The registry settings of a record. -/
def registryOfJson? : Option Json → Option RegistrySettings
  | none => some defaultRegistry
  | some j => do
    match ← j.record? ["definitions_path"] surplus with
    | [path] => return ⟨← optionalText? path⟩
    | _ => none

/-- The limits of a record. -/
def limitsOfJson? : Option Json → Option LimitSettings
  | none => some defaultLimits
  | some j => do
    match ← j.record? ["max_nesting_depth", "max_input_size"] surplus with
    | [some depth, some size] => return ⟨← depth.uint64?, ← size.uint64?⟩
    | _ => none

/-- The log settings of a record. -/
def loggingOfJson? : Option Json → Option LogSettings
  | none => some defaultLogging
  | some j => do
    match ← j.record? ["app_name", "log_level", "json_format", "log_to_file", "log_file_path"]
        surplus with
    | [some name, some level, some json, toFile, path] =>
      return { appName := ← name.str?
               level := ← LogLevel.ofText? (← level.str?)
               jsonFormat := ← json.bool?
               toFile := ← (toFile.getD (.bool false)).bool?
               filePath := ← optionalText? path }
    | _ => none

/-- The configuration of a record. Items of a list beyond the last member are refused unless
`surplus` allows them. -/
def ofJson? (j : Json) : Option Config := do
  match ← j.record? ["registry", "limits", "logging"] surplus with
  | [registry, limits, logging] =>
    return { registry := ← registryOfJson? surplus registry
             limits := ← limitsOfJson? surplus limits
             logging := ← loggingOfJson? surplus logging }
  | _ => none

/-! ### TOML -/

/-- The configuration of a TOML document. -/
def ofToml (text : String) : Except Error Config :=
  match (Toml.parse? text).bind fun table => ofJson? true (Toml.Value.table table).toPlain with
  | some config => .ok config
  | none => .error (.config .invalidDocument)

/-- The configuration of a TOML file. -/
def ofFile (files : Files) (path : String) : Except Error Config :=
  match files.read path with
  | .error fault => .error (.config (.unreadableFile fault))
  | .ok text => ofToml text

/-- A line that gives a key its value. -/
def line (key value : String) : String := key ++ " = " ++ value ++ "\n"

/-- A line that gives a key its text, if there is one. -/
def textLine (key : String) : Option String → String
  | some text => line key (Toml.quote text)
  | none => ""

/-- The configuration as a TOML document. -/
def toTomlText (config : Config) : String :=
  "[registry]\n" ++ textLine "definitions_path" config.registry.definitionsPath ++
    "\n[limits]\n" ++ line "max_nesting_depth" (toString config.limits.maxDepth) ++
    line "max_input_size" (toString config.limits.maxInput) ++
    "\n[logging]\n" ++ line "app_name" (Toml.quote config.logging.appName) ++
    line "log_level" (Toml.quote config.logging.level.name) ++
    line "json_format" (toString config.logging.jsonFormat) ++
    line "log_to_file" (toString config.logging.toFile) ++
    textLine "log_file_path" config.logging.filePath

/-- The configuration as a TOML document, if it has one. -/
def toToml (config : Config) : Except Error String :=
  if config.limits.maxDepth ≤ Text.maxInt64 ∧ config.limits.maxInput ≤ Text.maxInt64 then
    .ok config.toTomlText
  else .error (.config .unwritable)

/-- A document to start from. -/
def example? : Except Error String := default.toToml

end FieldWire.Config
