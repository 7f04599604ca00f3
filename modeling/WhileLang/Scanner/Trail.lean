import WhileLang.Scanner

/-!
# Trails

A trail is a scanner over a known source with the places kept so far. Its steps are all that can be
done to a scanner: read, look, move, keep a place and return to one.
-/

namespace WhileLang

set_option autoImplicit false

structure Trail where
  source : List Char
  scanner : Scanner
  kept : List Place
  deriving Repr

namespace Trail

inductive Step where
  | next
  | peek
  | consume
  | skipBlanks
  | keep
  /-- Returns to the kept place of this number. -/
  | restore (index : Nat)
  /-- Goes to any place, also one that does not belong to the source. -/
  | jump (place : Place)
  deriving DecidableEq, Repr

inductive Reply where
  | token (outcome : Except Fault Token)
  | char (found : Option Char)
  | kept (index : Nat)
  | done
  deriving Repr

def ofString (source : String) : Trail :=
  ⟨source.toList, Scanner.ofString source, []⟩

def goto (trail : Trail) (place : Place) : Trail :=
  { trail with scanner := Scanner.resume trail.source place }

/-- A number under which no place is kept leaves the trail as it is. -/
def step (trail : Trail) : Step → Reply × Trail
  | .next =>
    let (outcome, scanner) := trail.scanner.next
    (.token outcome, { trail with scanner })
  | .peek => (.char trail.scanner.peek, trail)
  | .consume =>
    let (found, scanner) := trail.scanner.consume
    (.char found, { trail with scanner })
  | .skipBlanks => (.done, { trail with scanner := trail.scanner.skipBlanks })
  | .keep => (.kept trail.kept.length, { trail with kept := trail.kept ++ [trail.scanner.place] })
  | .restore index =>
    match trail.kept[index]? with
    | some place => (.done, trail.goto place)
    | none => (.done, trail)
  | .jump place => (.done, trail.goto place)

def walk (trail : Trail) : List Step → List (Reply × Trail)
  | [] => []
  | first :: steps =>
    let taken := trail.step first
    taken :: taken.2.walk steps

end Trail

end WhileLang
