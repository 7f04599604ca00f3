import WhileLang.Proofs.DocumentText

/-!
# A document is determined by its text

No text of a document starts another one: what follows a document is told apart from it by the first
character that does not belong, or by the quote or bracket that closes it. So a text, with anything
behind it that does not lengthen a number, is the text of one document only (`Json.Unique`), as long
as its numbers are finite; the others are all written `null`.
-/

namespace WhileLang

set_option autoImplicit false

namespace Json

/-- A number in front of this text ends there. -/
def Apart (rest : List Char) : Prop :=
  ∀ char ∈ rest.head?, isNumeric char = false

theorem apart_cons {char : Char} (other : isNumeric char = false) (rest : List Char) :
    Apart (char :: rest) := by
  intro first same
  cases same
  exact other

def hexValue (digit : Char) : Nat :=
  if digit.toNat < 97 then digit.toNat - 48 else digit.toNat - 87

def unmark : Char → Char
  | 'n' => '\n'
  | 'r' => '\r'
  | 't' => '\t'
  | 'b' => '\x08'
  | 'f' => '\x0c'
  | letter => letter

/-- The character at the front of the inside of a string, and what follows it. -/
def unescape : List Char → Option (Char × List Char)
  | '\\' :: 'u' :: _ :: _ :: high :: low :: rest =>
    some (Char.ofNat (16 * hexValue high + hexValue low), rest)
  | '\\' :: letter :: rest => some (unmark letter, rest)
  | char :: rest => some (char, rest)
  | [] => none

theorem unescape_escape (char : Char) (rest : List Char) :
    unescape (escape char ++ rest) = some (char, rest) := by
  induction char using escape_cases with
  | control code small => interval_cases code <;> rfl
  | quote => rfl
  | backslash => rfl
  | plain char unquoted direct itself =>
    rw [itself, List.singleton_append]
    unfold unescape
    split
    next same => exact absurd (List.cons.inj same).1 direct
    next same => exact absurd (List.cons.inj same).1 direct
    next same =>
      cases same
      rfl
    next same => cases same

theorem escape_opens (char : Char) : ∃ first rest, escape char = first :: rest ∧ first ≠ '"' := by
  induction char using escape_cases with
  | control code small => interval_cases code <;> exact ⟨_, _, rfl, by decide⟩
  | quote => exact ⟨_, _, rfl, by decide⟩
  | backslash => exact ⟨_, _, rfl, by decide⟩
  | plain char unquoted direct itself => exact ⟨char, [], itself, unquoted⟩

theorem escapes_unique {chars others rest otherRest : List Char}
    (same : chars.flatMap escape ++ '"' :: rest = others.flatMap escape ++ '"' :: otherRest) :
    chars = others ∧ rest = otherRest := by
  induction chars generalizing others with
  | nil =>
    cases others with
    | nil => exact ⟨rfl, (List.cons.inj same).2⟩
    | cons other others =>
      obtain ⟨first, more, opens, unquoted⟩ := escape_opens other
      rw [List.flatMap_cons, opens] at same
      exact absurd (List.cons.inj same).1.symm unquoted
  | cons char chars induction =>
    cases others with
    | nil =>
      obtain ⟨first, more, opens, unquoted⟩ := escape_opens char
      rw [List.flatMap_cons, opens] at same
      exact absurd (List.cons.inj same).1 unquoted
    | cons other others =>
      rw [List.flatMap_cons, List.flatMap_cons, List.append_assoc, List.append_assoc] at same
      have read := congrArg unescape same
      rw [unescape_escape, unescape_escape, Option.some.injEq, Prod.mk.injEq] at read
      obtain ⟨sameFirst, sameLater⟩ := read
      obtain ⟨sameChars, sameRest⟩ := induction sameLater
      exact ⟨by rw [sameFirst, sameChars], sameRest⟩

theorem quoted_unique {text other : String} {rest otherRest : List Char}
    (same : quoted text ++ rest = quoted other ++ otherRest) : text = other ∧ rest = otherRest := by
  have inner : text.toList.flatMap escape ++ '"' :: rest =
      other.toList.flatMap escape ++ '"' :: otherRest := by
    simpa [quoted] using same
  obtain ⟨sameText, sameRest⟩ := escapes_unique inner
  exact ⟨String.toList_inj.mp sameText, sameRest⟩

section Items

variable {Item : Type} {text : Item → List Char} {valid : Item → Prop} {item other : Item}
variable {items others : List Item} {closing : Char} {rest otherRest : List Char}

/-- Among valid items, the text at the front tells this one apart from the others, whatever
follows. -/
def Unique (text : Item → List Char) (valid : Item → Prop) (item : Item) : Prop :=
  ∀ other, valid other → ∀ rest otherRest, Apart rest → Apart otherRest →
    text item ++ rest = text other ++ otherRest → item = other ∧ rest = otherRest

theorem apart_separated (ends : isNumeric closing = false) (items : List Item) (rest : List Char) :
    Apart (separated text items ++ closing :: rest) := by
  cases items with
  | nil => exact apart_cons ends rest
  | cons first later =>
    rw [separated_cons]
    exact apart_cons rfl _

theorem separated_unique (each : ∀ item ∈ items, Unique text valid item)
    (fit : ∀ other ∈ others, valid other)
    (ends : isNumeric closing = false) (different : closing ≠ ',')
    (same : separated text items ++ closing :: rest =
      separated text others ++ closing :: otherRest) :
    items = others ∧ rest = otherRest := by
  induction items generalizing others with
  | nil =>
    cases others with
    | nil => exact ⟨rfl, (List.cons.inj same).2⟩
    | cons other others =>
      rw [separated_cons] at same
      exact absurd (List.cons.inj same).1 different
  | cons item items induction =>
    cases others with
    | nil =>
      rw [separated_cons] at same
      exact absurd (List.cons.inj same).1.symm different
    | cons other others =>
      obtain ⟨head, tail⟩ := List.forall_mem_cons.mp each
      obtain ⟨otherHead, otherTail⟩ := List.forall_mem_cons.mp fit
      rw [separated_cons, separated_cons, List.cons_append, List.cons_append, List.append_assoc,
        List.append_assoc] at same
      obtain ⟨sameItem, sameLater⟩ := head other otherHead _ _ (apart_separated ends items rest)
        (apart_separated ends others otherRest) (List.cons.inj same).2
      obtain ⟨sameItems, sameRest⟩ := induction tail otherTail sameLater
      exact ⟨by rw [sameItem, sameItems], sameRest⟩

/-- Between brackets the items are known, and where the list ends. -/
theorem joined_unique (each : ∀ item ∈ items, Unique text valid item)
    (sound : ∀ item ∈ items, valid item)
    (fit : ∀ other ∈ others, valid other) (ends : isNumeric closing = false)
    (different : closing ≠ ',')
    (opens : ∀ item, valid item → ∃ first later, text item = first :: later ∧ first ≠ closing)
    (same : joined text items ++ closing :: rest = joined text others ++ closing :: otherRest) :
    items = others ∧ rest = otherRest := by
  cases items with
  | nil =>
    cases others with
    | nil => exact ⟨rfl, (List.cons.inj same).2⟩
    | cons other others =>
      obtain ⟨first, later, starts, unlike⟩ := opens other (fit other List.mem_cons_self)
      rw [joined, joined, starts] at same
      exact absurd (List.cons.inj same).1.symm unlike
  | cons item items =>
    cases others with
    | nil =>
      obtain ⟨first, later, starts, unlike⟩ := opens item (sound item List.mem_cons_self)
      rw [joined, joined, starts] at same
      exact absurd (List.cons.inj same).1 unlike
    | cons other others =>
      -- with a comma in front these are the items of `separated`
      apply separated_unique each fit ends different
      rw [separated_cons, separated_cons]
      exact congrArg (',' :: ·) same

end Items

inductive Finite : Json → Prop
  | null : Finite .null
  | number {value : Float} (finite : magnitude value < Magnitude.infinity) : Finite (.number value)
  | string (text : String) : Finite (.string text)
  | array {elements : List Json} (each : ∀ element ∈ elements, element.Finite) :
      Finite (.array elements)
  | object {members : List (String × Json)} (each : ∀ member ∈ members, member.2.Finite) :
    Finite (.object members)

def opening : Json → Option Char
  | null => some 'n'
  | number _ => none
  | string _ => some '"'
  | array _ => some '['
  | object _ => some '\x7b'

theorem read_number {value : Float} (finite : magnitude value < Magnitude.infinity) :
    Numeral.read? (number value).letters = some value := by
  have legible : ∀ decimal, Legible (NumberStyle.json.finite decimal) decimal :=
    Decimal.fractional_legible
  have signed :
      (isNegative value && (magnitude value ≠ 0 || NumberStyle.json.signedZero)) =
        isNegative value := by
    simp [NumberStyle.json]
  rw [letters_number, NumberStyle.read_write legible finite, signed,
    ← eq_of_magnitude (Nat.le_of_lt finite)]

theorem numeric_number {value : Float} (finite : magnitude value < Magnitude.infinity) :
    ∀ char ∈ (number value).letters, isNumeric char = true :=
  NumberStyle.numeric_write Decimal.fractional_legible finite

theorem letters_open {document : Json} (finite : document.Finite) :
    ∃ first later, document.letters = first :: later ∧
      document.opening = if isNumeric first then none else some first := by
  cases finite with
  | null => exact ⟨_, _, rfl, rfl⟩
  | @number value finite =>
    cases written : (number value).letters with
    | nil =>
      have read := read_number finite
      rw [written] at read
      cases read
    | cons first later =>
      have numeric := numeric_number finite
      rw [written] at numeric
      exact ⟨first, later, rfl, by rw [numeric first List.mem_cons_self]; rfl⟩
  | string text => exact ⟨_, _, letters_string text, rfl⟩
  | array each => exact ⟨_, _, letters_array _, rfl⟩
  | object each => exact ⟨_, _, letters_object _, rfl⟩

theorem letters_open_ne {document : Json} (finite : document.Finite) {char : Char}
    (other : isNumeric char = false) (unused : document.opening ≠ some char) :
    ∃ first later, document.letters = first :: later ∧ first ≠ char := by
  obtain ⟨first, later, opens, kind⟩ := letters_open finite
  refine ⟨first, later, opens, ?_⟩
  rintro rfl
  rw [other] at kind
  exact unused kind

theorem opening_eq {document other : Json} (finite : document.Finite) (otherFinite : other.Finite)
    {rest otherRest : List Char} (same : document.letters ++ rest = other.letters ++ otherRest) :
    document.opening = other.opening := by
  obtain ⟨first, later, opens, kind⟩ := letters_open finite
  obtain ⟨otherFirst, otherLater, otherOpens, otherKind⟩ := letters_open otherFinite
  rw [opens, otherOpens] at same
  rw [kind, otherKind, (List.cons.inj same).1]

theorem take_numeric {text rest : List Char} (numeric : ∀ char ∈ text, isNumeric char = true)
    (apart : Apart rest) : (text ++ rest).takeWhile isNumeric = text := by
  have ends : rest.takeWhile isNumeric = [] := by
    cases rest with
    | nil => rfl
    | cons first later => rw [List.takeWhile_cons, apart first rfl]; rfl
  rw [List.takeWhile_append_of_pos numeric, ends, List.append_nil]

theorem number_unique {value other : Float} (finite : magnitude value < Magnitude.infinity)
    (otherFinite : magnitude other < Magnitude.infinity) {rest otherRest : List Char}
    (apart : Apart rest) (otherApart : Apart otherRest)
    (same : (number value).letters ++ rest = (number other).letters ++ otherRest) :
    value = other ∧ rest = otherRest := by
  have sameText : (number value).letters = (number other).letters := by
    calc (number value).letters
      _ = ((number value).letters ++ rest).takeWhile isNumeric :=
        (take_numeric (numeric_number finite) apart).symm
      _ = ((number other).letters ++ otherRest).takeWhile isNumeric := by rw [same]
      _ = (number other).letters := take_numeric (numeric_number otherFinite) otherApart
  have read : some value = some other := by
    calc some value
      _ = Numeral.read? (number value).letters := (read_number finite).symm
      _ = Numeral.read? (number other).letters := by rw [sameText]
      _ = some other := read_number otherFinite
  rw [sameText] at same
  exact ⟨Option.some.inj read, List.append_cancel_left same⟩

theorem member_unique {member : String × Json} (inner : Unique letters Finite member.2) :
    Unique memberLetters (fun member => member.2.Finite) member := by
  intro other fit rest otherRest apart otherApart same
  rw [memberLetters, memberLetters, List.append_assoc, List.append_assoc] at same
  obtain ⟨sameName, sameLater⟩ := quoted_unique same
  obtain ⟨sameValue, sameRest⟩ :=
    inner other.2 fit rest otherRest apart otherApart (List.cons.inj sameLater).2
  exact ⟨Prod.ext sameName sameValue, sameRest⟩

/-- The text of a finite document is the front of no other one's. -/
theorem Finite.unique {document : Json} (finite : document.Finite) :
    Unique letters Finite document := by
  induction finite with
  | null =>
    intro other fit rest otherRest apart otherApart same
    have kind := opening_eq .null fit same
    cases fit with
    | null => exact ⟨rfl, List.append_cancel_left same⟩
    | _ => cases kind
  | number finite =>
    intro other fit rest otherRest apart otherApart same
    have kind := opening_eq (.number finite) fit same
    cases fit with
    | number otherFinite =>
      obtain ⟨sameValue, sameRest⟩ := number_unique finite otherFinite apart otherApart same
      exact ⟨by rw [sameValue], sameRest⟩
    | _ => cases kind
  | string text =>
    intro other fit rest otherRest apart otherApart same
    have kind := opening_eq (.string text) fit same
    cases fit with
    | string other =>
      rw [letters_string, letters_string] at same
      obtain ⟨sameText, sameRest⟩ := quoted_unique same
      exact ⟨by rw [sameText], sameRest⟩
    | _ => cases kind
  | array each induction =>
    intro other fit rest otherRest apart otherApart same
    have kind := opening_eq (.array each) fit same
    cases fit with
    | array otherEach =>
      rw [letters_array, letters_array, List.cons_append, List.cons_append, List.append_assoc,
        List.append_assoc] at same
      obtain ⟨sameItems, sameRest⟩ := joined_unique induction each otherEach rfl (by decide)
        (fun _ fit => letters_open_ne fit rfl (by cases fit <;> simp [opening]))
        (List.cons.inj same).2
      exact ⟨by rw [sameItems], sameRest⟩
    | _ => cases kind
  | object each induction =>
    intro other fit rest otherRest apart otherApart same
    have kind := opening_eq (.object each) fit same
    cases fit with
    | object otherEach =>
      rw [letters_object, letters_object, List.cons_append, List.cons_append, List.append_assoc,
        List.append_assoc] at same
      obtain ⟨sameItems, sameRest⟩ := joined_unique
        (fun member listed => member_unique (induction member listed)) each otherEach rfl
          (by decide)
        (fun member _ => ⟨_, _, rfl, by decide⟩) (List.cons.inj same).2
      exact ⟨by rw [sameItems], sameRest⟩
    | _ => cases kind

end Json

end WhileLang
