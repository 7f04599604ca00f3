/-!
# TOML documents

Values, and the rules by which keys and headers build tables. A table remembers how it came to be,
because that decides whether a later line may still add to it.
-/

namespace WhileLang

set_option autoImplicit false

namespace Toml

inductive Birth where
  /-- Written between braces: complete at once. -/
  | inline
  /-- By a dotted key: further dotted keys may add to it. -/
  | dotted
  /-- On the way to the table of a header: may still get a header of its own. -/
  | implied
  /-- By its own header, or the document itself. -/
  | declared
  deriving DecidableEq, Repr

end Toml

inductive Toml where
  | text (value : String)
  | integer (value : Int)
  | float (value : Float)
  | boolean (value : Bool)
  /-- A date, a time or both. Which one it is has no use here. -/
  | moment
  | array (elements : List Toml)
  | table (birth : Toml.Birth) (entries : List (String × Toml))
  /-- Tables under one repeated header, in order. -/
  | tables (rows : List (List (String × Toml)))
  deriving Inhabited

namespace Toml

abbrev Entries := List (String × Toml)

def put (entries : Entries) (key : String) (value : Toml) : Entries :=
  if (entries.lookup key).isSome then
    entries.map fun entry => if entry.1 = key then (key, value) else entry
  else entries ++ [(key, value)]

def add? (entries : Entries) (key : String) (value : Toml) : Option Entries :=
  if (entries.lookup key).isSome then none else some (entries ++ [(key, value)])

/-- Changes the table at the end of a path and makes the missing ones on the way. With repeated
headers the path leads to their latest table. A dotted path does not enter tables that have a
header, and no path enters a table between braces or a value. -/
def update? (change : Birth → Entries → Option Entries) (dotted : Bool) (birth : Birth)
    (entries : Entries) : List String → Option Entries
  | [] => change birth entries
  | key :: path =>
    match entries.lookup key with
    | none =>
      let made := if dotted then .dotted else .implied
      (update? change dotted made [] path).map fun inner => put entries key (.table made inner)
    | some (.table found inner) =>
      if found = .inline || (dotted && found = .declared) then none
      else (update? change dotted found inner path).map fun inner =>
        put entries key (.table found inner)
    | some (.tables rows) =>
      match rows.getLast? with
      | none => none
      | some row =>
        (update? change dotted .declared row path).map fun row =>
          put entries key (.tables (rows.dropLast ++ [row]))
    | some _ => none

/-- Adds `key` behind a dotted path. The tables of the path must themselves stem from dotted
keys. -/
def assign? (entries : Entries) (path : List String) (key : String) (value : Toml) :
    Option Entries :=
  update?
    (fun birth inner => if path.isEmpty || birth = .dotted then add? inner key value else none)
    true .declared entries path

def declare? (document : Entries) (path : List String) (key : String) : Option Entries :=
  update? (fun _ inner =>
    match inner.lookup key with
    | none => some (put inner key (.table .declared []))
    | some (.table .implied entries) => some (put inner key (.table .declared entries))
    | some _ => none) false .declared document path

def repeat? (document : Entries) (path : List String) (key : String) : Option Entries :=
  update? (fun _ inner =>
    match inner.lookup key with
    | none => some (put inner key (.tables [[]]))
    | some (.tables rows) => some (put inner key (.tables (rows ++ [[]])))
    | some _ => none) false .declared document path

def assignUnder? (document : Entries) (header path : List String) (key : String) (value : Toml) :
    Option Entries :=
  update? (fun _ inner => assign? inner path key value) false .declared document header

structure Key where
  path : List String
  last : String
  deriving DecidableEq, Repr

def Key.parts (key : Key) : List String :=
  key.path ++ [key.last]

def inline? (pairs : List (Key × Toml)) : Option Toml :=
  (pairs.foldlM (fun entries pair => assign? entries pair.1.path pair.1.last pair.2) []).map
    (.table .inline)

inductive Line where
  | header (key : Key)
  | repeated (key : Key)
  | pair (key : Key) (value : Toml)
  | blank

/-- A document under construction: its entries and the header that new pairs go under. -/
structure Draft where
  entries : Entries
  header : List String

def Draft.add? (draft : Draft) : Line → Option Draft
  | .header key => (declare? draft.entries key.path key.last).map (⟨·, key.parts⟩)
  | .repeated key => (repeat? draft.entries key.path key.last).map (⟨·, key.parts⟩)
  | .pair key value =>
    (assignUnder? draft.entries draft.header key.path key.last value).map (⟨·, draft.header⟩)
  | .blank => some draft

def ofLines? (lines : List Line) : Option Entries :=
  (lines.foldlM Draft.add? ⟨[], []⟩).map Draft.entries

end Toml

end WhileLang
