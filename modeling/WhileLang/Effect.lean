import WhileLang.CommandLine
import WhileLang.FileTree
import WhileLang.Log
import WhileLang.Machine
import WhileLang.Node.Json
import WhileLang.Parser

/-!
# Effects of commands

A command has effects in a fixed order: log records, lines on standard output, and values that the
program prints. If it fails it says why; the record of that failure is made in one place only, by
`Outcome.all`.
-/

namespace WhileLang

set_option autoImplicit false

inductive Effect where
  | record (record : LogRecord)
  /-- A line that the command itself writes. -/
  | line (text : String)
  /-- A value that the program prints. -/
  | print (value : Float)

namespace Effect

def ofLog (level : LogLevel) (target message : String) : Effect :=
  .record ⟨level, target, message⟩

/-- The records of reading a source: its size, every token, and the tree if there is one. -/
def ofParsing (source : String) (parsing : Parsing) : List Effect :=
  let log := ofLog .debug "minilang_core::language::parser"
  let started := log ("Parsing " ++ toString source.utf8ByteSize ++ " characters of source")
  let tokens := parsing.taken.map fun token =>
    ofLog .trace "minilang_core::language::lexer"
      ("Token " ++ token.describe ++ " at " ++ toString token.line ++ ":" ++ toString token.column)
  let finished :=
    match parsing.outcome with
    | .ok node => [log ("Parsing finished: " ++ node.display)]
    | .error _ => []
  started :: tokens ++ finished

def ofEvent : Event → Effect
  | .printed value => .print value
  | .assigned name value =>
    ofLog .trace "minilang_core::language::interpreter::evaluator"
      ("Assigning " ++ name ++ " = " ++ showNumber value)
  | .entered count =>
    ofLog .trace "minilang_core::language::interpreter::executor"
      ("Executing block of " ++ toString count ++ " statements")
  | .ignored statement =>
    ofLog .trace "minilang_core::language::interpreter::evaluator"
      ("Statement node in expression position evaluates to 0: " ++ statement.display)

def ofSeed (seed : String × Float) : Effect :=
  ofLog .debug "minilang_core::language::interpreter"
    ("Setting variable " ++ seed.1 ++ " = " ++ showNumber seed.2)

def ofRun (node : Node) (machine : Machine) : List Effect :=
  ofLog .debug "minilang_core::language::interpreter" ("Executing program: " ++ node.display) ::
    machine.events.reverse.map ofEvent

end Effect

structure Outcome where
  effects : List Effect
  failure : Option String

namespace Outcome

def exitCode (outcome : Outcome) : Nat :=
  if outcome.failure.isSome then 1 else 0

def all (outcome : Outcome) : List Effect :=
  match outcome.failure with
  | some message => outcome.effects ++ [.ofLog .error "minilang" message]
  | none => outcome.effects

/-- Goes on with the tree of the program at `path`. A program that cannot be read or parsed
fails. -/
def ofProgram (path : String) (source : Except FileError String)
    (proceed : List Effect → Node → Option Outcome) : Option Outcome :=
  match source with
  | .error error =>
    some ⟨[], some ("Failed to read program '" ++ path ++ "': " ++ error.message)⟩
  | .ok text =>
    let parsing := Parsing.ofString text
    let effects := Effect.ofParsing text parsing
    match parsing.outcome with
    | .error fault => some ⟨effects, some (path ++ ": " ++ fault.display)⟩
    | .ok node => proceed effects node

def dumpLine (pair : String × Float) : String :=
  pair.1 ++ " = " ++ printNumber pair.2

/-- Seeds the variables, runs the program and perhaps shows all variables by ascending name. -/
def ofRun (budget : Nat) (path : String) (source : Except FileError String)
    (seeds : List (String × Float)) (dump : Bool) : Option Outcome :=
  ofProgram path source fun effects node => do
    let machine ← Machine.run budget node ⟨Store.empty.setAll seeds, []⟩
    let log level message := Effect.ofLog level "minilang::commands::run" message
    let shown := if dump then machine.store.toList.map (.line <| dumpLine ·) else []
    return ⟨effects ++ seeds.map .ofSeed ++ [log .info ("Running " ++ path)] ++
      Effect.ofRun node machine ++ [log .debug ("Finished " ++ path)] ++ shown, none⟩

def ofAst (path : String) (source : Except FileError String) (compact : Bool) : Option Outcome :=
  ofProgram path source fun effects node =>
    let document := node.toJson
    let text := if compact then document.compact else document.pretty
    some ⟨effects ++ [.line text], none⟩

end Outcome

namespace Demo

def factorial : String :=
"
result = 1;
i = 1;
while (i < fact + 1) \x7b
    result = result * i;
    i = i + 1;
\x7d
print result;
"

def loop : String :=
"
while (i < len + 1) \x7b
    if (i > len/2) \x7b
        print len - i;
    \x7d else \x7b
        print i;
    \x7d
    i = i + 1;
\x7d
"

/-- Runs a bundled program with one variable set. `title` is what is written in between. -/
def part (budget : Nat) (source : String) (seed : String × Float) (title : List Effect) :
    Option Outcome := do
  let parsing := Parsing.ofString source
  let effects := Effect.ofSeed seed :: title ++ Effect.ofParsing source parsing
  match parsing.outcome with
  | .error fault => return ⟨effects, some fault.display⟩
  | .ok node =>
    let machine ← Machine.run budget node ⟨Store.empty.setAll [seed], []⟩
    return ⟨effects ++ Effect.ofRun node machine, none⟩

end Demo

namespace Outcome

/-- The effects of `first`, and those of `second` unless the first failed. -/
def andThen (first second : Outcome) : Outcome :=
  match first.failure with
  | some _ => first
  | none => ⟨first.effects ++ second.effects, second.failure⟩

def ofDemo (budget : Nat) : Option Outcome := do
  let started := Effect.ofLog .info "minilang::commands::demo" "Running bundled demo programs"
  let factorial ← Demo.part budget Demo.factorial ("fact", 5)
    [.line ("Factorial of " ++ printNumber 5 ++ ":")]
  let loop ← Demo.part budget Demo.loop ("len", 20) []
  return andThen ⟨[started], none⟩
    (andThen factorial (andThen ⟨[.line "", .line "Loop example:"], none⟩ loop))

end Outcome

end WhileLang
