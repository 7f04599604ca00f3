import WhileLang.Effect
import WhileLang.Settings

/-!
# Invocations

One invocation from its words to its report. It first reads the words, then the settings, then
starts logging, and only then carries out the command. What it needs of the outside world is in
`Disk`, so the same steps run on a `FileTree` and on a real file system.
-/

namespace WhileLang

set_option autoImplicit false

structure Disk (m : Type → Type) where
  readText : String → m (Except FileError String)
  makeFolders : String → m (Except FileError Unit)
  /-- Opens a file for adding lines. -/
  openFile : String → m (Except FileError Unit)

inductive StartFault where
  | settingsUnreadable (path : String) (error : FileError)
  | settingsInvalid (path : String)
  | unknownLevel (unknown : UnknownLevel)
  | logFile (error : FileError)

def StartFault.message : StartFault → String
  | settingsUnreadable path error =>
    "Failed to read config file '" ++ path ++ "': " ++ error.message
  | settingsInvalid path => "Failed to parse config file '" ++ path ++ "'"
  | unknownLevel unknown => "Failed to initialise logging: " ++ unknown.message
  | logFile error =>
    "Failed to initialise logging: IO Error initializing logger: " ++ error.message

structure Logging where
  console : Threshold
  /-- The path of the log file and what it takes. -/
  file : Option (String × Threshold)
  deriving DecidableEq, Repr

/-- The first record of every invocation that gets this far. -/
def Logging.ready (logging : Logging) : Effect :=
  let file :=
    match logging.file with
    | some (path, threshold) => threshold.name ++ " at " ++ path
    | none => "off"
  .ofLog .debug "minilang_logger"
    ("Logger ready: console " ++ logging.console.name ++ ", file " ++ file)

structure Report where
  exitCode : Nat
  /-- Lines on standard error that are no records. -/
  notices : List String
  effects : List Effect
  logging : Logging

namespace Report

def silent (exitCode : Nat) (notices : List String) : Report :=
  ⟨exitCode, notices, [], ⟨.off, none⟩⟩

def ofOutcome (logging : Logging) (outcome : Outcome) : Report :=
  ⟨outcome.exitCode, [], logging.ready :: outcome.all, logging⟩

end Report

namespace Invocation

def readSettings {m : Type → Type} [Monad m] (disk : Disk m) :
    Option String → ExceptT StartFault m Settings
  | none => return {}
  | some path => do
    match ← disk.readText path with
    | .error error => throw (.settingsUnreadable path error)
    | .ok text =>
      match Settings.read? text with
      | some settings => return settings
      | none => throw (.settingsInvalid path)

def threshold {m : Type → Type} [Monad m] (found : Except UnknownLevel Threshold) :
    ExceptT StartFault m Threshold :=
  match found with
  | .ok threshold => return threshold
  | .error unknown => throw (.unknownLevel unknown)

def openLog {m : Type → Type} [Monad m] (disk : Disk m) (stamp folder : String) :
    ExceptT StartFault m String := do
  let path := joinPath folder (logFileName stamp)
  match ← disk.makeFolders folder with
  | .error error => throw (.logFile error)
  | .ok () =>
    match ← disk.openFile path with
    | .error error => throw (.logFile error)
    | .ok () => return path

/-- A verbose console takes debug records, whatever the settings say. The level of the log file is
checked also when there is no file. -/
def startLogging {m : Type → Type} [Monad m] (disk : Disk m) (stamp : String) (verbose : Bool)
    (settings : LogSettings) : ExceptT StartFault m Logging := do
  let console ← if verbose then pure (.upTo .debug) else threshold settings.console
  let file ← threshold settings.file
  match settings.folder with
  | none => return ⟨console, none⟩
  | some folder => return ⟨console, some (← openLog disk stamp folder, file)⟩

/-- Carries out a command. The variables of the settings are seeded before those of the command. -/
def perform {m : Type → Type} [Monad m] (disk : Disk m) (budget : Nat) (seeded : Store) :
    Command → m (Option Outcome)
  | .run path seeds dump => do
    return Outcome.ofRun budget path (← disk.readText path) (seeded.toList ++ seeds) dump
  | .ast path compact => do
    return Outcome.ofAst path (← disk.readText path) compact
  | .demo => return Outcome.ofDemo budget

def start {m : Type → Type} [Monad m] (disk : Disk m) (stamp : String) (request : Request) :
    ExceptT StartFault m (Settings × Logging) := do
  let settings ← readSettings disk request.settings
  let logging ← startLogging disk stamp request.verbose settings.logging
  return (settings, logging)

/-- The whole invocation. `none` stands for a program that does not end within the budget. -/
def report {m : Type → Type} [Monad m] (disk : Disk m) (stamp : String) (budget : Nat)
    (words : List String) : m (Option Report) := do
  match CommandLine.read words with
  | .error .refused => return some (.silent 2 [])
  | .error .help => return some (.silent 0 [])
  | .error .version =>
    return some { Report.silent 0 [] with effects := [.line "minilang 0.1.0"] }
  | .ok request =>
    match ← (start disk stamp request).run with
    | .error fault => return some (.silent 1 [fault.message])
    | .ok (settings, logging) =>
      let outcome ← perform disk budget settings.store request.command
      return outcome.map (.ofOutcome logging)

end Invocation

inductive Sink where
  | accepting
  | full
  deriving DecidableEq, Repr

namespace Effect

def output? (sink : Sink) : Effect → Option String
  | .record _ => none
  | .line text => if sink = .full then none else some text
  | .print value => if sink = .full then none else some (printNumber value)

/-- The record of an effect. Printing into a full standard output makes one too. -/
def record? (sink : Sink) : Effect → Option LogRecord
  | .record made => some made
  | .line _ => none
  | .print _ =>
    if sink = .full then
      some ⟨.warn, "minilang_core::language::interpreter",
        "Failed to write program output: " ++ FileError.noSpace.message⟩
    else none

end Effect

namespace Report

def output (report : Report) (sink : Sink) : String :=
  String.join ((report.effects.filterMap (·.output? sink)).map (· ++ "\n"))

def records (report : Report) (sink : Sink) : List LogRecord :=
  report.effects.filterMap (·.record? sink)

def admitted (report : Report) (sink : Sink) (threshold : Threshold) : List LogRecord :=
  (report.records sink).filter (threshold.admits ·.level)

def errorLines (report : Report) (sink : Sink) (colour : Bool) (stamp : String) : List String :=
  report.notices ++
    (report.admitted sink report.logging.console).map (·.consoleLine colour stamp)

def logFile? (report : Report) (sink : Sink) : Option (String × List LogRecord) :=
  report.logging.file.map fun (path, threshold) => (path, report.admitted sink threshold)

end Report

def FileTree.disk : Disk (StateM FileTree) where
  readText path := do return (← get).readText path
  makeFolders path := do
    match (← get).makeFolders path with
    | .ok tree => set tree; return .ok ()
    | .error error => return .error error
  openFile path := do
    match (← get).openFile path with
    | .ok tree => set tree; return .ok ()
    | .error error => return .error error

end WhileLang
