import FieldWire.Config.Document

/-!
# Using a configuration

Settings that can be read may still be of no use: paths must lead somewhere and limits be neither
zero nor excessive. `Config.problems` lists what is wrong, in the order of the settings, and a codec
or a log is set up from a configuration only when its settings can be used.
-/

namespace FieldWire

/-- What is wrong with the registry settings. -/
def RegistrySettings.problems (files : Files) (settings : RegistrySettings) : List Problem :=
  match settings.definitionsPath with
  | none => []
  | some path =>
    if path.isEmpty then [.emptyDefinitionsPath]
    else if files.isFile path then []
    else [.noDefinitionsFile path]

/-- What is wrong with the limits. -/
def LimitSettings.problems (settings : LimitSettings) : List Problem :=
  (if settings.maxDepth = 0 then [.zeroDepth]
    else if maxNestingLimit < settings.maxDepth then [.depthTooLarge settings.maxDepth]
    else []) ++
  if settings.maxInput = 0 then [.zeroSize]
  else if maxInputLimit < settings.maxInput then [.sizeTooLarge settings.maxInput]
  else []

/-- The greatest length of the name of an application, in bytes. -/
def maxAppName : Nat := 64

/-- What is wrong with the place of the log file. -/
def LogSettings.fileProblems (files : Files) (settings : LogSettings) : List Problem :=
  if settings.toFile then
    match settings.filePath with
    | none => [.noLogPath]
    | some path =>
      match FilePath.parent? path with
      | none => []
      | some up => if up.isEmpty ∨ files.exists? up then [] else [.noLogDirectory up]
  else []

/-- What is wrong with the log settings. -/
def LogSettings.problems (files : Files) (settings : LogSettings) : List Problem :=
  let length := (utf8Bytes settings.appName).length
  (if length = 0 then [.emptyAppName]
    else if maxAppName < length then [.longAppName length]
    else []) ++ settings.fileProblems files

namespace Config

/-- What is wrong with a configuration. -/
def problems (files : Files) (config : Config) : List Problem :=
  config.registry.problems files ++ config.limits.problems ++ config.logging.problems files

/-- Fails if anything is wrong with a configuration. -/
def validate (files : Files) (config : Config) : Except Error Unit :=
  match config.problems files with
  | [] => .ok ()
  | all => .error (.config (.problems all))

end Config

/-- The codec that a configuration describes. -/
def Codec.ofConfig (files : Files) (config : Config) : Except Error Codec := do
  config.validate files
  let registry ← match config.registry.definitionsPath with
    | some path => Registry.ofFile files path
    | none => pure Registry.bundled
  return { Codec.ofRegistry registry with
           maxDepth := config.limits.maxDepth
           maxInput := config.limits.maxInput }

/-- The place where logs go: a file that can be opened, or the terminal, which is none. -/
def LogSettings.open? (files : Files) (settings : LogSettings) : Except Error (Option String) :=
  if settings.toFile then
    match settings.filePath with
    | none => .error (.config .noLogPath)
    | some path =>
      match files.openToAppend path with
      | .ok () => .ok (some path)
      | .error fault => .error (.config (.unopenableLog path fault))
  else .ok none

end FieldWire
