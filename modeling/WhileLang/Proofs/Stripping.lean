import WhileLang.Node.Json
import WhileLang.Proofs.DocumentText

/-!
# Blanks outside of string literals

A string literal runs from a quote to the next quote that no backslash escapes (`Json.Literal`).
Deleting the spaces and line feeds outside of literals is a relation between two texts,
`Json.Stripped`, that says nothing of how to find the literals. The scan `Json.squeeze`, which
remembers where it stands, finds them: it comes to the one stripped form of every text whose
literals are all closed. The text of a document is such a text, since a space behind it is deleted
as well.
-/

namespace WhileLang

set_option autoImplicit false

namespace Json

/-- What may stand between the quotes of a literal: a quote only behind a backslash, which escapes
one character, also another backslash. -/
inductive LiteralBody : List Char → Prop where
  | nil : LiteralBody []
  | plain {char : Char} {rest : List Char} (unquoted : char ≠ '"') (direct : char ≠ '\\')
      (later : LiteralBody rest) : LiteralBody (char :: rest)
  | escape {rest : List Char} (char : Char) (later : LiteralBody rest) :
      LiteralBody ('\\' :: char :: rest)

def Literal (text : List Char) : Prop :=
  ∃ body, LiteralBody body ∧ text = '"' :: (body ++ ['"'])

/-- The second text is the first without the spaces and line feeds outside of string literals. -/
inductive Stripped : List Char → List Char → Prop where
  | nil : Stripped [] []
  | blank {char : Char} {rest result : List Char} (blank : char = ' ' ∨ char = '\n')
      (later : Stripped rest result) : Stripped (char :: rest) result
  | visible {char : Char} {rest result : List Char} (visible : char ≠ ' ' ∧ char ≠ '\n')
      (unquoted : char ≠ '"')
      (later : Stripped rest result) : Stripped (char :: rest) (char :: result)
  | literal {text rest result : List Char} (literal : Literal text) (later : Stripped rest result) :
      Stripped (text ++ rest) (text ++ result)

def Region.behind (region : Region) (text : List Char) : Region :=
  text.foldl Region.after region

theorem squeeze_append (region : Region) (left right : List Char) :
    squeeze region (left ++ right) = squeeze region left ++ squeeze (region.behind left) right := by
  induction left generalizing region with
  | nil => rfl
  | cons first rest induction =>
    have behind : region.behind (first :: rest) = (region.after first).behind rest := rfl
    rw [List.cons_append, squeeze, squeeze, induction, behind]
    split
    · rfl
    · rfl

theorem squeeze_body {body : List Char} (inner : LiteralBody body) (rest : List Char) :
    squeeze .inside (body ++ '"' :: rest) = body ++ '"' :: squeeze .outside rest := by
  induction inner with
  | nil => rfl
  | plain unquoted direct later induction =>
    rw [List.cons_append, squeeze, Region.after, if_neg unquoted, if_neg direct, induction]
    rfl
  | escape char later induction =>
    rw [List.cons_append, List.cons_append, squeeze, squeeze]
    exact congrArg ('\\' :: char :: ·) induction

theorem squeeze_literal {text : List Char} (literal : Literal text) (rest : List Char) :
    squeeze .outside (text ++ rest) = text ++ squeeze .outside rest := by
  obtain ⟨body, inner, rfl⟩ := literal
  have kept := squeeze_body inner rest
  have opened : '"' :: (body ++ ['"']) ++ rest = '"' :: (body ++ '"' :: rest) := by simp
  rw [opened]
  change '"' :: squeeze .inside _ = _
  rw [kept]
  simp

/-- A text is stripped in no other way than the scan strips it. -/
theorem Stripped.squeeze_eq {text result : List Char} (stripped : Stripped text result) :
    squeeze .outside text = result := by
  induction stripped with
  | nil => rfl
  | blank blank later induction =>
    rcases blank with rfl | rfl
    · exact induction
    · exact induction
  | visible visible unquoted later induction =>
    rw [squeeze, if_pos (by simpa [Region.keeps] using visible), Region.after, if_neg unquoted,
      induction]
  | literal literal later induction => rw [squeeze_literal literal, induction]

/-- A scan that starts inside of a literal and ends outside has passed the quote that closes it.
Behind a backslash there is one more character before. -/
theorem exists_body (text : List Char) :
    (Region.inside.behind text = .outside →
      ∃ body rest, LiteralBody body ∧ text = body ++ '"' :: rest ∧
        Region.outside.behind rest = .outside) ∧
    (Region.escaped.behind text = .outside →
      ∃ char body rest, LiteralBody body ∧ text = char :: (body ++ '"' :: rest) ∧
        Region.outside.behind rest = .outside) := by
  induction text with
  | nil =>
    constructor
    · intro closed
      cases closed
    · intro closed
      cases closed
  | cons first others induction =>
    constructor
    · intro closed
      change (Region.inside.after first).behind others = _ at closed
      by_cases quote : first = '"'
      · rw [Region.after, if_pos quote] at closed
        exact ⟨[], others, .nil, by rw [quote, List.nil_append], closed⟩
      rw [Region.after, if_neg quote] at closed
      by_cases backslash : first = '\\'
      · rw [if_pos backslash] at closed
        obtain ⟨char, body, rest, inner, split, ends⟩ := induction.2 closed
        refine ⟨'\\' :: char :: body, rest, .escape char inner, ?_, ends⟩
        rw [backslash, split]
        rfl
      · rw [if_neg backslash] at closed
        obtain ⟨body, rest, inner, split, ends⟩ := induction.1 closed
        refine ⟨first :: body, rest, .plain quote backslash inner, ?_, ends⟩
        rw [split]
        rfl
    · intro closed
      obtain ⟨body, rest, inner, split, ends⟩ := induction.1 closed
      exact ⟨first, body, rest, inner, by rw [split], ends⟩

theorem stripped_squeeze {text : List Char} (closed : Region.outside.behind text = .outside) :
    Stripped text (squeeze .outside text) := by
  -- A literal is passed as a whole, so the induction is on the length.
  induction size : text.length using Nat.strong_induction_on generalizing text with
  | h length induction =>
    cases text with
    | nil => exact .nil
    | cons first others =>
      change (Region.outside.after first).behind others = _ at closed
      by_cases quote : first = '"'
      · rw [Region.after, if_pos quote] at closed
        obtain ⟨body, rest, inner, split, ends⟩ := (exists_body others).1 closed
        have literal : Literal ('"' :: (body ++ ['"'])) := ⟨body, inner, rfl⟩
        have whole : first :: others = '"' :: (body ++ ['"']) ++ rest := by simp [quote, split]
        have shorter : rest.length < length := by
          rw [← size, whole, List.length_append, List.length_cons]
          omega
        rw [whole, squeeze_literal literal]
        exact .literal literal (induction rest.length shorter ends rfl)
      · rw [Region.after, if_neg quote] at closed
        have shorter : others.length < length := by
          rw [← size, List.length_cons]
          omega
        have later := induction others.length shorter closed rfl
        rw [squeeze, Region.after, if_neg quote]
        by_cases visible : first ≠ ' ' ∧ first ≠ '\n'
        · rw [if_pos (by simpa [Region.keeps] using visible)]
          exact .visible visible quote later
        · rw [if_neg (by simpa [Region.keeps] using visible)]
          exact .blank (by tauto) later

/-- A text that squeezes whatever comes behind it ends outside of literals, since a space there is
deleted. -/
theorem Squeezes.behind_eq {text result : List Char} (squeezes : Squeezes text result) :
    Region.outside.behind text = .outside := by
  have alone := squeezes []
  have spaced := squeezes [' ']
  rw [List.append_nil] at alone
  rw [squeeze_append, alone] at spaced
  cases ends : Region.outside.behind text with
  | outside => rfl
  | inside =>
    rw [ends] at spaced
    simp [squeeze, Region.keeps] at spaced
  | escaped =>
    rw [ends] at spaced
    simp [squeeze, Region.keeps] at spaced

theorem stripped_pretty (document : Json) :
    Stripped document.pretty.toList document.compact.toList := by
  have closed : Region.outside.behind document.pretty.toList = .outside :=
    (Squeezes.document document 0).behind_eq
  rw [← squeeze_pretty]
  exact stripped_squeeze closed

end Json

/-- The indented text of a tree has one stripped form, which is its compact text. -/
theorem Node.pretty_strips_to_compact (tree : Node) (text : List Char) :
    Json.Stripped tree.toJson.pretty.toList text ↔ text = tree.toJson.compact.toList := by
  constructor
  · intro stripped
    rw [← stripped.squeeze_eq, Json.squeeze_pretty]
  · rintro rfl
    exact Json.stripped_pretty tree.toJson

end WhileLang
