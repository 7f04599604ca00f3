import WhileLang.Log
import WhileLang.Store
import WhileLang.Toml.Reader

/-!
# Settings

What a settings file says about logging, and the variables it seeds. Unknown keys are ignored; a
known key with a value of the wrong kind makes the whole file invalid.
-/

namespace WhileLang

set_option autoImplicit false

structure UnknownLevel where
  name : String
  deriving DecidableEq, Repr

def UnknownLevel.message (unknown : UnknownLevel) : String :=
  "Unknown log level '" ++ unknown.name ++ "'"

def readThreshold (name : String) : Except UnknownLevel Threshold :=
  match Threshold.ofName? name with
  | some threshold => .ok threshold
  | none => .error ⟨name⟩

structure LogSettings where
  level : String := "warn"
  fileLevel : String := "debug"
  /-- The folder of the log file. Without one no file is written. -/
  folder : Option String := none
  deriving DecidableEq, Repr

namespace LogSettings

def console (settings : LogSettings) : Except UnknownLevel Threshold :=
  readThreshold settings.level

def file (settings : LogSettings) : Except UnknownLevel Threshold :=
  readThreshold settings.fileLevel

end LogSettings

structure Settings where
  logging : LogSettings := {}
  /-- The variables a program starts with. -/
  store : Store := .empty

namespace Settings

def text? (fallback : String) : Option Toml → Option String
  | none => some fallback
  | some (.text value) => some value
  | some _ => none

def folder? : Option Toml → Option (Option String)
  | none => some none
  | some (.text value) => some (some value)
  | some _ => none

def logging? (level fileLevel folder : Option Toml) : Option LogSettings := do
  return ⟨← text? "warn" level, ← text? "debug" fileLevel, ← folder? folder⟩

/-- The logging settings are a table with these keys, or an array of their values in this order. A
date counts as a table without any of the keys. -/
def readLogging : Option Toml → Option LogSettings
  | none => some {}
  | some (.table _ entries) =>
    logging? (entries.lookup "level") (entries.lookup "file_level") (entries.lookup "dir")
  | some (.array elements) => logging? elements[0]? elements[1]? elements[2]?
  | some .moment => some {}
  | some _ => none

def number? : Toml → Option Float
  | .integer value => some (Decimal.toFloat ⟨value.natAbs, 0⟩ (value < 0))
  | .float value => some value
  | _ => none

def readVariables : Option Toml → Option Store
  | none => some .empty
  | some (.table _ entries) =>
    entries.foldlM (fun store entry => (number? entry.2).map (store.set entry.1)) .empty
  | some _ => none

def read? (text : String) : Option Settings := do
  let entries ← Toml.Reading.document? text
  return ⟨← readLogging (entries.lookup "logging"), ← readVariables (entries.lookup "vars")⟩

end Settings

end WhileLang
