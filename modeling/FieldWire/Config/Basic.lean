import FieldWire.Codec.Basic

/-!
# Configurations

A configuration names the registry, limits the inputs of decoding, and sets up logging.
-/

namespace FieldWire

/-- How much is logged, from most to least. -/
inductive LogLevel where
  | trace | debug | info | warn | error
deriving DecidableEq, Repr

namespace LogLevel

/-- The name of a level. -/
def name : LogLevel → String
  | trace => "trace"
  | debug => "debug"
  | info => "info"
  | warn => "warn"
  | error => "error"

/-- Every level. -/
def all : List LogLevel := [trace, debug, info, warn, error]

/-- The level of a number, from the least that is logged to the most. -/
def ofNumber? : Nat → Option LogLevel
  | 1 => some error
  | 2 => some warn
  | 3 => some info
  | 4 => some debug
  | 5 => some trace
  | _ => none

/-- The level of a text: a number, or a name in letters of either case. -/
def ofText? (text : String) : Option LogLevel :=
  let number := (Text.readUnsigned 10 Text.maxUInt64 text.toList).toOption
  (number.bind ofNumber?).or (all.find? fun level => level.name = text.toLower)

end LogLevel

/-- Which registry is used. -/
structure RegistrySettings where
  /-- The file of the schema; the bundled one is used where none is named. -/
  definitionsPath : Option String
deriving DecidableEq, Repr

/-- The limits of decoding. -/
structure LimitSettings where
  /-- The limit on nesting. -/
  maxDepth : Nat
  /-- The limit on the size of an input, in bytes. -/
  maxInput : Nat
deriving DecidableEq, Repr

/-- How the application logs. -/
structure LogSettings where
  /-- The name of the application. -/
  appName : String
  /-- How much is logged. -/
  level : LogLevel
  /-- Whether logs are written as JSON. -/
  jsonFormat : Bool
  /-- Whether logs go to a file. -/
  toFile : Bool
  /-- The file for logs. -/
  filePath : Option String
deriving DecidableEq, Repr

/-- The settings of an application. -/
structure Config where
  /-- Which registry is used. -/
  registry : RegistrySettings
  /-- The limits of decoding. -/
  limits : LimitSettings
  /-- How the application logs. -/
  logging : LogSettings
deriving DecidableEq, Repr

namespace Config

/-- The bundled registry. -/
def defaultRegistry : RegistrySettings := ⟨none⟩

/-- The default limits. -/
def defaultLimits : LimitSettings := ⟨defaultMaxDepth, defaultMaxInput⟩

/-- Logging to the terminal. -/
def defaultLogging : LogSettings := ⟨"ledger-binary-codec", .info, false, false, none⟩

/-- The settings where none are given. -/
def default : Config := ⟨defaultRegistry, defaultLimits, defaultLogging⟩

end Config

end FieldWire
