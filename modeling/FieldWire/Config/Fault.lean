import FieldWire.Files
import FieldWire.Text.Numeral

/-!
# What is wrong with a configuration

A `Problem` is a setting that can be read but not used; a configuration may have several. A
`ConfigFault` ends the work with a configuration.
-/

namespace FieldWire

/-- The greatest limit on nesting. -/
def maxNestingLimit : Nat := 1024

/-- The greatest limit on the size of an input, in bytes. -/
def maxInputLimit : Nat := 1024 * 1024 * 1024

/-- A setting that cannot be used. -/
inductive Problem where
  /-- The path of the schema is empty. -/
  | emptyDefinitionsPath
  /-- No file stands at the path of the schema. -/
  | noDefinitionsFile (path : String)
  /-- No nesting is allowed. -/
  | zeroDepth
  /-- Too deep nesting is allowed. -/
  | depthTooLarge (depth : Nat)
  /-- No input is allowed. -/
  | zeroSize
  /-- Too large inputs are allowed. -/
  | sizeTooLarge (size : Nat)
  /-- The application has no name. -/
  | emptyAppName
  /-- The name of the application is too long, in bytes. -/
  | longAppName (length : Nat)
  /-- The directory of the log file is missing. -/
  | noLogDirectory (path : String)
  /-- Logs go to a file that is not named. -/
  | noLogPath
deriving DecidableEq, Repr

/-- What is said where a log file is wanted and not named. -/
def noLogPathMessage : String := "log_file_path must be specified when log_to_file is true"

/-- The problem in words. -/
def Problem.message : Problem → String
  | emptyDefinitionsPath => "Definitions path cannot be empty"
  | noDefinitionsFile path => s!"Definitions file does not exist: {path}"
  | zeroDepth => "Max nesting depth must be greater than 0"
  | depthTooLarge depth => s!"Max nesting depth too large: {depth} (maximum: {maxNestingLimit})"
  | zeroSize => "Max input size cannot be 0"
  | sizeTooLarge size => s!"Max input size too large: {size} bytes (maximum recommended: 1 GB)"
  | emptyAppName => "Application name cannot be empty"
  | longAppName length => s!"Application name too long: {length} characters (maximum: 64)"
  | noLogDirectory path => s!"Log file directory does not exist: {path}"
  | noLogPath => noLogPathMessage

/-- Why a configuration cannot be read, written or used. -/
inductive ConfigFault where
  /-- The file cannot be read. -/
  | unreadableFile (fault : FileFault)
  /-- The text is no configuration. -/
  | invalidDocument
  /-- A number has no written form. -/
  | unwritable
  /-- A variable holds no number. -/
  | invalidNumber (setting text : String) (fault : Text.NumeralFault)
  /-- A variable holds no log level. -/
  | invalidLevel (setting text : String)
  /-- Settings cannot be used. -/
  | problems (all : List Problem)
  /-- The log file cannot be opened. -/
  | unopenableLog (path : String) (fault : FileFault)
  /-- Logs go to a file that is not named. -/
  | noLogPath

/-- The fault in words. -/
def ConfigFault.message : ConfigFault → String
  | unreadableFile fault => s!"Failed to read config file: {fault.message}"
  | invalidDocument => "Failed to parse TOML"
  | unwritable => "Failed to serialize config"
  | invalidNumber setting text fault => s!"{setting}={text}: {fault.message}"
  | invalidLevel setting text => s!"{setting}: invalid log level {text}"
  | problems all =>
    "Configuration validation failed:\n  - " ++ "\n  - ".intercalate (all.map Problem.message)
  | unopenableLog path fault => s!"Failed to open log file {path}: {fault.message}"
  | noLogPath => noLogPathMessage

end FieldWire
