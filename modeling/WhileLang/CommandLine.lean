import WhileLang.Seed

/-!
# Command line

The options that belong to every command may stand before or after its name; those of a command
stand behind it. What is given behind the name wins. Giving an option twice at one place is refused,
except for seeds.
-/

namespace WhileLang

set_option autoImplicit false

inductive Command where
  | run (path : String) (seeds : List (String × Float)) (dump : Bool)
  | ast (path : String) (compact : Bool)
  | demo

structure Request where
  settings : Option String
  verbose : Bool
  command : Command

namespace CommandLine

inductive Exit where
  | refused
  | help
  | version
  deriving DecidableEq, Repr

inductive Verb where
  | run
  | ast
  | demo
  deriving DecidableEq, Repr

def verb? : String → Option Verb
  | "run" => some .run
  | "ast" => some .ast
  | "demo" => some .demo
  | _ => none

structure Given where
  settings : Option String := none
  verbose : Bool := false
  seeds : List (String × Float) := []
  dump : Bool := false
  compact : Bool := false
  path : Option String := none
  /-- An option that waits for its value. -/
  waiting : Option String := none
  /-- Everything from here on is positional. -/
  literal : Bool := false

/-- The options that take a value, behind `verb` or before any. -/
def takesValue (verb : Option Verb) (name : String) : Bool :=
  name = "config" || (name = "var" && verb = some .run)

def flag (verb : Option Verb) (given : Given) (name : String) : Except Exit Given :=
  match name with
  | "help" => .error .help
  | "version" => .error (if verb = none then .version else .refused)
  | "verbose" => if given.verbose then .error .refused else .ok { given with verbose := true }
  | "dump-vars" =>
    if verb ≠ some .run || given.dump then .error .refused else .ok { given with dump := true }
  | "compact" =>
    if verb ≠ some .ast || given.compact then .error .refused
    else .ok { given with compact := true }
  | _ => .error .refused

def valued (verb : Option Verb) (given : Given) (name value : String) : Except Exit Given :=
  if !takesValue verb name then .error .refused
  else if name = "config" then
    if given.settings.isSome then .error .refused else .ok { given with settings := some value }
  else
    match readSeed value with
    | .ok seed => .ok { given with seeds := given.seeds ++ [seed] }
    | .error _ => .error .refused

/-- A word that is no option. Before the verb no such word is expected. -/
def positional (verb : Option Verb) (given : Given) (word : String) : Except Exit Given :=
  if verb = some .run || verb = some .ast then
    if given.path.isSome then .error .refused else .ok { given with path := some word }
  else .error .refused

def shortFlag (letter : Char) : String :=
  match letter with
  | 'v' => "verbose"
  | 'h' => "help"
  | 'V' => "version"
  | other => other.toString

def longOption (verb : Option Verb) (given : Given) (text : List Char) : Except Exit Given :=
  let name := String.ofList (text.takeWhile (· ≠ '='))
  match text.dropWhile (· ≠ '=') with
  | _ :: value => valued verb given name (String.ofList value)
  | [] =>
    if takesValue verb name then .ok { given with waiting := some name } else flag verb given name

/-- A word that cannot be the value of an option before it. -/
def looksLikeOption (word : String) : Bool :=
  match word.toList with
  | '-' :: _ :: _ => true
  | _ => false

def take (verb : Option Verb) (given : Given) (word : String) : Except Exit Given :=
  match given.waiting with
  | some name =>
    if looksLikeOption word then .error .refused
    else valued verb { given with waiting := none } name word
  | none =>
    if given.literal then positional verb given word
    else
      match word.toList with
      | ['-', '-'] => .ok { given with literal := true }
      | '-' :: '-' :: text => longOption verb given text
      | '-' :: letter :: letters =>
        (letter :: letters).foldlM (fun given letter => flag verb given (shortFlag letter)) given
      | _ => positional verb given word

/-- What `help` does with the words behind it: it explains everything, one verb, or itself. -/
def helpOn : List String → Exit
  | [] => .help
  | [topic] => if topic = "help" || (verb? topic).isSome then .help else .refused
  | _ => .refused

def splitAtVerb (given : Given) : List String → Except Exit (Given × Verb × List String)
  | [] => .error .refused
  | word :: words =>
    let free := given.waiting.isNone && !given.literal
    if free && word = "help" then .error (helpOn words)
    else
      match if free then verb? word else none with
      | some verb => .ok (given, verb, words)
      | none =>
        match take none given word with
        | .ok given => splitAtVerb given words
        | .error exit => .error exit

def command (verb : Verb) (given : Given) : Except Exit Command :=
  match verb, given.path with
  | .run, some path => .ok (.run path given.seeds given.dump)
  | .ast, some path => .ok (.ast path given.compact)
  | .demo, _ => .ok .demo
  | _, none => .error .refused

def read (words : List String) : Except Exit Request := do
  let (before, verb, words) ← splitAtVerb {} words
  let behind ← words.foldlM (take (some verb)) {}
  if behind.waiting.isSome then throw .refused
  let command ← command verb behind
  return ⟨behind.settings <|> before.settings, before.verbose || behind.verbose, command⟩

end CommandLine

end WhileLang
