import WhileLang.Number.Numeral
import WhileLang.WhiteSpace

/-!
# Seeds

A seed `NAME=VALUE` gives a variable its value before a program runs.
-/

namespace WhileLang

set_option autoImplicit false

inductive SeedFault where
  | missingEquals (argument : String)
  | missingName (argument : String)
  | invalidNumber (text : String)
  deriving DecidableEq, Repr

def SeedFault.message : SeedFault → String
  | missingEquals argument => "expected NAME=VALUE, got '" ++ argument ++ "'"
  | missingName argument => "missing variable name in '" ++ argument ++ "'"
  | invalidNumber text => "'" ++ text ++ "' is not a number"

/-- Name and value stand on the two sides of the first `=`, and white space around either of them
does not count. -/
def readSeed (argument : String) : Except SeedFault (String × Float) :=
  let left := argument.toList.takeWhile (· ≠ '=')
  match argument.toList.dropWhile (· ≠ '=') with
  | [] => .error (.missingEquals argument)
  | _ :: right =>
    let name := trim left
    let value := trim right
    if name.isEmpty then .error (.missingName argument)
    else
      match Numeral.read? value with
      | some number => .ok (String.ofList name, number)
      | none => .error (.invalidNumber (String.ofList value))

end WhileLang
