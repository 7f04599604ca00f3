import Std.Data.TreeMap

/-!
# Store

The variables of an interpreter. A name that was never stored is absent; `Store.read` is what an
expression sees of it.
-/

namespace WhileLang

set_option autoImplicit false

structure Store where
  values : Std.TreeMap String Float

namespace Store

def empty : Store := ⟨∅⟩

def get? (store : Store) (name : String) : Option Float :=
  store.values[name]?

/-- The value of a name in an expression. Names never stored are zero. -/
def read (store : Store) (name : String) : Float :=
  (store.get? name).getD 0

def set (store : Store) (name : String) (value : Float) : Store :=
  ⟨store.values.insert name value⟩

/-- Stores the pairs in order, so that of two with one name the later wins. -/
def setAll (store : Store) (pairs : List (String × Float)) : Store :=
  pairs.foldl (fun store pair => store.set pair.1 pair.2) store

def toList (store : Store) : List (String × Float) :=
  store.values.toList

end Store

end WhileLang
