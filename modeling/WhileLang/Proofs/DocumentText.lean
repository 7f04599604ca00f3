import WhileLang.Json
import WhileLang.Proofs.ReadBack

/-!
# Texts of documents

A list is written as the texts of its items with commas between them (`Json.joined`), in both
layouts of a document. The indented layout adds blanks, and never inside a string: deleting the
blanks outside of strings (`Json.squeeze`) leaves the compact text (`Json.squeeze_pretty`).
-/

namespace WhileLang

set_option autoImplicit false

namespace Json

/-- Induction over documents, lists and their items included. -/
@[elab_as_elim]
theorem document_induction {motive : Json → Prop} (null : motive .null)
    (number : ∀ value, motive (.number value)) (string : ∀ text, motive (.string text))
    (array : ∀ elements, (∀ element ∈ elements, motive element) → motive (.array elements))
    (object : ∀ members, (∀ member ∈ members, motive member.2) → motive (.object members))
    (document : Json) : motive document := by
  apply @Json.rec motive (fun elements => ∀ element ∈ elements, motive element)
    (fun members => ∀ member ∈ members, motive member.2) (fun member => motive member.2)
  · exact null
  · exact number
  · exact string
  · exact array
  · exact object
  · simp
  · intro first rest head tail
    exact List.forall_mem_cons.mpr ⟨head, tail⟩
  · simp
  · intro first rest head tail
    exact List.forall_mem_cons.mpr ⟨head, tail⟩
  · exact fun _ _ inner => inner

section Items

variable {Item : Type} {text other : Item → List Char} {items : List Item}

def separated (text : Item → List Char) (items : List Item) : List Char :=
  items.flatMap fun item => ',' :: text item

theorem separated_cons (first : Item) (rest : List Item) :
    separated text (first :: rest) = ',' :: (text first ++ separated text rest) := by
  simp [separated]

def joined (text : Item → List Char) : List Item → List Char
  | [] => []
  | first :: rest => text first ++ separated text rest

end Items

theorem escape_plain {char : Char} (printable : 32 ≤ char.toNat) (unquoted : char ≠ '"')
    (direct : char ≠ '\\') : escape char = [char] := by
  unfold escape
  split
  next => exact absurd rfl unquoted
  next => exact absurd rfl direct
  next => exact absurd printable (by decide)
  next => exact absurd printable (by decide)
  next => exact absurd printable (by decide)
  next => exact absurd printable (by decide)
  next => exact absurd printable (by decide)
  next => rw [if_neg (Nat.not_lt_of_le printable)]

/-- What holds of the escapes, which are few, and of all characters that stand for themselves, holds
of every character. -/
theorem escape_cases {motive : Char → Prop} (control : ∀ code < 32, motive (Char.ofNat code))
    (quote : motive '"') (backslash : motive '\\')
    (plain : ∀ char, char ≠ '"' → char ≠ '\\' → escape char = [char] → motive char) (char : Char) :
    motive char := by
  by_cases printable : 32 ≤ char.toNat
  · by_cases quoted : char = '"'
    · rw [quoted]
      exact quote
    · by_cases indirect : char = '\\'
      · rw [indirect]
        exact backslash
      · exact plain char quoted indirect (escape_plain printable quoted indirect)
  · rw [← Char.ofNat_toNat char]
    exact control char.toNat (Nat.lt_of_not_le printable)

theorem write_not_finite {value : Float} (large : ¬magnitude value < Magnitude.infinity) :
    NumberStyle.json.write value = "null" := by
  unfold NumberStyle.write
  dsimp only
  split
  · rfl
  · rw [if_pos (by omega)]
    rfl

def quoted (text : String) : List Char :=
  '"' :: (text.toList.flatMap escape ++ ['"'])

theorem quote_eq (text : String) : (quote text).toList = quoted text := by
  simp [quote, quoted]

def letters (document : Json) : List Char :=
  document.compact.toList

def memberLetters (member : String × Json) : List Char :=
  quoted member.1 ++ ':' :: member.2.letters

theorem compact_elements_eq (elements : List Json) :
    (compactElements elements).toList = separated letters elements := by
  induction elements with
  | nil => rfl
  | cons first rest induction => simp [compactElements, separated_cons, induction, letters]

theorem compact_members_eq (members : List (String × Json)) :
    (compactMembers members).toList = separated memberLetters members := by
  induction members with
  | nil => rfl
  | cons first rest induction =>
    simp [compactMembers, separated_cons, induction, quote_eq, memberLetters, letters]

theorem letters_number (value : Float) :
    (number value).letters = (NumberStyle.json.write value).toList := rfl

theorem letters_string (text : String) : (string text).letters = quoted text :=
  quote_eq text

theorem letters_array (elements : List Json) :
    (array elements).letters = '[' :: (joined letters elements ++ [']']) := by
  cases elements with
  | nil => rfl
  | cons first rest => simp [letters, compact, joined, compact_elements_eq]

theorem letters_object (members : List (String × Json)) :
    (object members).letters = '\x7b' :: (joined memberLetters members ++ ['\x7d']) := by
  cases members with
  | nil => rfl
  | cons first rest =>
    simp [letters, compact, joined, quote_eq, compact_members_eq, memberLetters]

def indented (depth : Nat) (document : Json) : List Char :=
  (document.prettyAt depth).toList

def elementLine (depth : Nat) (element : Json) : List Char :=
  (newline depth).toList ++ element.indented depth

def memberLine (depth : Nat) (member : String × Json) : List Char :=
  (newline depth).toList ++ (quoted member.1 ++ ':' :: ' ' :: member.2.indented depth)

theorem pretty_elements_eq (depth : Nat) (elements : List Json) :
    (prettyElements depth elements).toList = separated (elementLine depth) elements := by
  induction elements with
  | nil => rfl
  | cons first rest induction =>
    simp [prettyElements, separated_cons, induction, elementLine, indented]

theorem pretty_members_eq (depth : Nat) (members : List (String × Json)) :
    (prettyMembers depth members).toList = separated (memberLine depth) members := by
  induction members with
  | nil => rfl
  | cons first rest induction =>
    simp [prettyMembers, separated_cons, induction, quote_eq, memberLine, indented]

theorem indented_array (depth : Nat) (first : Json) (rest : List Json) :
    (array (first :: rest)).indented depth =
      '[' :: (joined (elementLine (depth + 1)) (first :: rest) ++
        ((newline depth).toList ++ [']'])) := by
  simp [indented, prettyAt, joined, pretty_elements_eq, elementLine]

theorem indented_object (depth : Nat) (first : String × Json) (rest : List (String × Json)) :
    (object (first :: rest)).indented depth =
      '\x7b' :: (joined (memberLine (depth + 1)) (first :: rest) ++
        ((newline depth).toList ++ ['\x7d'])) := by
  simp [indented, prettyAt, joined, pretty_members_eq, quote_eq, memberLine]

inductive Region where
  | outside
  | inside
  /-- Inside a string, behind a backslash. -/
  | escaped

namespace Region

def after : Region → Char → Region
  | outside, char => if char = '"' then inside else outside
  | inside, char => if char = '"' then outside else if char = '\\' then escaped else inside
  | escaped, _ => inside

/-- Spaces and line feeds do not count outside of strings. -/
def keeps : Region → Char → Bool
  | outside, char => char ≠ ' ' && char ≠ '\n'
  | _, _ => true

end Region

/-- Deletes the spaces and line feeds that stand outside of strings. -/
def squeeze (region : Region) : List Char → List Char
  | [] => []
  | first :: rest =>
    if region.keeps first then first :: squeeze (region.after first) rest
    else squeeze (region.after first) rest

/-- Squeezing leaves `result` of the text and goes on behind it. -/
def Squeezes (text result : List Char) : Prop :=
  ∀ rest, squeeze .outside (text ++ rest) = result ++ squeeze .outside rest

namespace Squeezes

variable {left leftResult right rightResult : List Char}

theorem append (first : Squeezes left leftResult) (second : Squeezes right rightResult) :
    Squeezes (left ++ right) (leftResult ++ rightResult) := by
  intro rest
  rw [List.append_assoc, first, second, List.append_assoc]

theorem cons {char : Char} (visible : Region.outside.keeps char = true) (unquoted : char ≠ '"')
    (later : Squeezes right rightResult) : Squeezes (char :: right) (char :: rightResult) := by
  intro rest
  rw [List.cons_append, squeeze, if_pos visible, Region.after, if_neg unquoted, later,
    List.cons_append]

theorem blank {char : Char} (blank : Region.outside.keeps char = false) (unquoted : char ≠ '"')
    (later : Squeezes right rightResult) : Squeezes (char :: right) rightResult := by
  intro rest
  rw [List.cons_append, squeeze, blank, Region.after, if_neg unquoted]
  exact later rest

theorem nil : Squeezes [] [] := by
  intro rest
  rfl

theorem newline (depth : Nat) : Squeezes (newline depth).toList [] := by
  have spaces : ∀ count, Squeezes (List.replicate count ' ') [] := by
    intro count
    induction count with
    | zero => exact .nil
    | succ count induction => exact .blank rfl (by decide) induction
  have line : (Json.newline depth).toList = '\n' :: List.replicate (2 * depth) ' ' := by
    simp [Json.newline]
  rw [line]
  exact .blank rfl (by decide) (spaces _)

theorem plain {text : List Char}
    (visible : ∀ char ∈ text, Region.outside.keeps char = true ∧ char ≠ '"') :
    Squeezes text text := by
  induction text with
  | nil => exact .nil
  | cons first rest induction =>
    obtain ⟨head, tail⟩ := List.forall_mem_cons.mp visible
    exact .cons head.1 head.2 (induction tail)

theorem escape (char : Char) (rest : List Char) :
    squeeze .inside (Json.escape char ++ rest) = Json.escape char ++ squeeze .inside rest := by
  induction char using escape_cases with
  | control code small => interval_cases code <;> rfl
  | quote => rfl
  | backslash => rfl
  | plain char unquoted direct itself =>
    rw [itself, List.singleton_append, squeeze, Region.after, if_neg unquoted, if_neg direct]
    rfl

theorem quoted (text : String) : Squeezes (quoted text) (quoted text) := by
  have inner :
      ∀ (chars rest : List Char), squeeze .inside (chars.flatMap Json.escape ++ '"' :: rest) =
      chars.flatMap Json.escape ++ '"' :: squeeze .outside rest := by
    intro chars rest
    induction chars with
    | nil => rfl
    | cons first chars induction =>
      rw [List.flatMap_cons, List.append_assoc, escape, induction, List.append_assoc]
  intro rest
  have started : squeeze .outside (Json.quoted text ++ rest) =
      '"' :: squeeze .inside (text.toList.flatMap Json.escape ++ '"' :: rest) := by
    simp [Json.quoted, squeeze, Region.keeps, Region.after]
  rw [started, inner]
  simp [Json.quoted]

section Items

variable {Item : Type} {text result : Item → List Char} {items : List Item}

theorem separated (each : ∀ item ∈ items, Squeezes (text item) (result item)) :
    Squeezes (separated text items) (separated result items) := by
  induction items with
  | nil => exact .nil
  | cons first rest induction =>
    obtain ⟨head, tail⟩ := List.forall_mem_cons.mp each
    rw [separated_cons, separated_cons]
    exact .cons rfl (by decide) (.append head (induction tail))

theorem joined (each : ∀ item ∈ items, Squeezes (text item) (result item)) :
    Squeezes (joined text items) (joined result items) := by
  cases items with
  | nil => exact .nil
  | cons first rest =>
    obtain ⟨head, tail⟩ := List.forall_mem_cons.mp each
    exact .append head (.separated tail)

theorem enclosed {opening closing : Char}
    (each : ∀ item ∈ items, Squeezes (text item) (result item))
    (starts : Region.outside.keeps opening = true ∧ opening ≠ '"')
    (ends : Region.outside.keeps closing = true ∧ closing ≠ '"') (depth : Nat) :
    Squeezes (opening :: (Json.joined text items ++ ((Json.newline depth).toList ++ [closing])))
      (opening :: (Json.joined result items ++ [closing])) := by
  apply cons starts.1 starts.2
  apply append (joined each)
  exact append (newline depth) (cons ends.1 ends.2 nil)

end Items

theorem number (value : Float) :
    Squeezes (NumberStyle.json.write value).toList (NumberStyle.json.write value).toList := by
  by_cases finite : magnitude value < Magnitude.infinity
  · apply plain
    intro char member
    have numeric := NumberStyle.numeric_write Decimal.fractional_legible finite char member
    have other : ∀ blank : Char, isNumeric blank = false → char ≠ blank := by
      rintro blank unfit rfl
      exact absurd (numeric.symm.trans unfit) (by decide)
    refine ⟨?_, other _ rfl⟩
    simp [Region.keeps, other ' ' rfl, other '\n' rfl]
  · rw [write_not_finite finite]
    exact plain (by simp [Region.keeps])

theorem document (document : Json) (depth : Nat) :
    Squeezes (document.indented depth) document.letters := by
  induction document using document_induction generalizing depth with
  | null => exact plain (by simp [indented, prettyAt, Region.keeps])
  | number value => exact number value
  | string text =>
    have same : (string text).indented depth = Json.quoted text := quote_eq text
    rw [same, letters_string]
    exact quoted text
  | array elements induction =>
    cases elements with
    | nil => exact plain (by simp [indented, prettyAt, Region.keeps])
    | cons first rest =>
      rw [indented_array, letters_array]
      apply enclosed _ ⟨rfl, by decide⟩ ⟨rfl, by decide⟩
      intro element member
      exact append (newline _) (induction element member _)
  | object members induction =>
    cases members with
    | nil => exact plain (by simp [indented, prettyAt, Region.keeps])
    | cons first rest =>
      rw [indented_object, letters_object]
      apply enclosed _ ⟨rfl, by decide⟩ ⟨rfl, by decide⟩
      intro item member
      apply append (newline _)
      apply append (quoted item.1)
      apply cons rfl (by decide)
      exact blank rfl (by decide) (induction item member _)

end Squeezes

/-- Without the blanks outside of its strings, the indented text is the compact one. -/
theorem squeeze_pretty (document : Json) :
    squeeze .outside document.pretty.toList = document.compact.toList := by
  have squeezed := Squeezes.document document 0 []
  rw [List.append_nil, squeeze, List.append_nil] at squeezed
  exact squeezed

end Json

end WhileLang
