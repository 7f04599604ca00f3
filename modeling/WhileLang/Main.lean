import Std.Time.Zoned
import WhileLang.Invocation

/-!
# The program

Carries out one invocation on the real file system and writes down its report.
-/

namespace WhileLang

set_option autoImplicit false

def FileError.ofSystem : IO.Error → FileError
  | .noFileOrDirectory _ _ _ => .notFound
  | .alreadyExists _ _ _ => .alreadyExists
  | .inappropriateType _ code details =>
    if code = 20 then .notAFolder else if code = 21 then .isAFolder else .other details
  | .resourceExhausted _ code details => if code = 28 then .noSpace else .other details
  | error => .other error.toString

def attempt {α : Type} (action : IO α) : IO (Except FileError α) := do
  try return .ok (← action)
  catch error => return .error (.ofSystem error)

def systemDisk : Disk IO where
  readText path := do
    match ← attempt (IO.FS.readBinFile path) with
    | .error error => return .error error
    | .ok bytes =>
      match String.fromUTF8? bytes with
      | some text => return .ok text
      | none => return .error .notText
  makeFolders path := attempt (if path.isEmpty then pure () else IO.FS.createDirAll path)
  openFile path := attempt do
    let _ ← IO.FS.Handle.mk path .append

def Moment.now : IO Moment := do
  let now ← Std.Time.PlainDateTime.now
  return ⟨now.date.year, now.date.month.val.toNat, now.date.day.val.toNat,
    now.time.hour.val.toNat, now.time.minute.val.toNat, now.time.second.val.toNat⟩

def timeStamp : IO String := do
  let time := (← Std.Time.PlainDateTime.now).time
  return zeroPadded 2 time.hour.val.toNat ++ ":" ++ zeroPadded 2 time.minute.val.toNat ++ ":" ++
    zeroPadded 2 time.second.val.toNat ++ "." ++ zeroPadded 3 (time.nanosecond.val.toNat / 1000000)

/-- Writes the output of a program, and tells whether it was taken. -/
def writeOutput (text : String) : IO Sink := do
  let stdout ← IO.getStdout
  try
    stdout.putStr text
    stdout.flush
    return .accepting
  catch _ => return .full

def writeReport (report : Report) : IO Unit := do
  let sink ← writeOutput (report.output .accepting)
  let stamp ← timeStamp
  let stderr ← IO.getStderr
  let colour ← stderr.isTty
  for line in report.errorLines sink colour stamp do
    stderr.putStrLn line
  if let some (path, records) := report.logFile? sink then
    let handle ← IO.FS.Handle.mk path .append
    for record in records do
      handle.putStrLn (record.fileLine ⟨none, none⟩ stamp)

end WhileLang

open WhileLang in
def main (words : List String) : IO UInt32 := do
  let stamp := (← Moment.now).stamp
  match ← Invocation.report systemDisk stamp (Nat.pow 2 62) words with
  | some report =>
    writeReport report
    return UInt32.ofNat report.exitCode
  | none => return 1
