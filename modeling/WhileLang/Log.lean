/-!
# Log records

A record has a level, a target that says which part of the program speaks, and a message. A
destination takes the records up to its threshold.
-/

namespace WhileLang

set_option autoImplicit false

inductive LogLevel where
  | error
  | warn
  | info
  | debug
  | trace
  deriving DecidableEq, Repr

namespace LogLevel

def name : LogLevel → String
  | error => "ERROR"
  | warn => "WARN"
  | info => "INFO"
  | debug => "DEBUG"
  | trace => "TRACE"

/-- Greater is less urgent. -/
def rank : LogLevel → Nat
  | error => 1
  | warn => 2
  | info => 3
  | debug => 4
  | trace => 5

def padded (level : LogLevel) : String :=
  level.name ++ String.ofList (List.replicate (5 - level.name.length) ' ')

def style : LogLevel → String
  | error => "1;31"
  | warn => "1;33"
  | info => "32"
  | debug => "34"
  | trace => "2"

end LogLevel

def paint (colour : Bool) (style text : String) : String :=
  if colour then "\x1b[" ++ style ++ "m" ++ text ++ "\x1b[0m" else text

def LogLevel.tag (colour : Bool) (level : LogLevel) : String :=
  paint colour level.style level.padded

inductive Threshold where
  | off
  | upTo (level : LogLevel)
  deriving DecidableEq, Repr

namespace Threshold

def name : Threshold → String
  | off => "OFF"
  | upTo level => level.name

def admits : Threshold → LogLevel → Bool
  | off, _ => false
  | upTo limit, level => level.rank ≤ limit.rank

def all : List Threshold :=
  [off, upTo .error, upTo .warn, upTo .info, upTo .debug, upTo .trace]

/-- Reads a name in any case. -/
def ofName? (name : String) : Option Threshold :=
  all.find? fun threshold => threshold.name.toList = name.toList.map Char.toUpper

end Threshold

structure LogRecord where
  level : LogLevel
  target : String
  message : String
  deriving DecidableEq, Repr

/-- Where in a program's own text a record is made, as far as that is known. -/
structure Spot where
  file : Option String
  line : Option Nat
  deriving DecidableEq, Repr

namespace LogRecord

def consoleLine (record : LogRecord) (colour : Bool) (stamp : String) : String :=
  paint colour "2" stamp ++ " " ++ record.level.tag colour ++ " " ++
    paint colour "36" record.target ++ " " ++ record.message

def fileLine (record : LogRecord) (spot : Spot) (stamp : String) : String :=
  stamp ++ " " ++ record.level.padded ++ " " ++ record.target ++ " (" ++
    spot.file.getD "?" ++ ":" ++ toString (spot.line.getD 0) ++ ") " ++ record.message

end LogRecord

structure Moment where
  year : Int
  month : Nat
  day : Nat
  hour : Nat
  minute : Nat
  second : Nat
  deriving DecidableEq, Repr

def zeroPadded (width number : Nat) : String :=
  let digits := Nat.toDigits 10 number
  String.ofList (List.replicate (width - digits.length) '0' ++ digits)

namespace Moment

/-- Years beyond four digits carry a sign. -/
def yearText (moment : Moment) : String :=
  let sign := if moment.year < 0 then "-" else if 9999 < moment.year then "+" else ""
  sign ++ zeroPadded 4 moment.year.natAbs

def stamp (moment : Moment) : String :=
  moment.yearText ++ zeroPadded 2 moment.month ++ zeroPadded 2 moment.day ++ "-" ++
    zeroPadded 2 moment.hour ++ zeroPadded 2 moment.minute ++ zeroPadded 2 moment.second

end Moment

def logFileName (stamp : String) : String :=
  "minilang-" ++ stamp ++ ".log"

end WhileLang
