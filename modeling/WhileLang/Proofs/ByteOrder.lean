import Mathlib

/-!
# Order of texts and order of their bytes

Texts are ordered by their characters, and the bytes of two texts are ordered in the same way. A
character is written as one lead byte and up to three more that hold six bits each. More of them go
with a greater lead byte; with equally many the order is that of the digits of a number to the base
of 64.
-/

namespace WhileLang

set_option autoImplicit false

def textBytes (text : String) : List UInt8 :=
  text.toUTF8.data.toList

namespace ByteOrder

/-- At the first place where they differ, and there is one, the left has the smaller byte. -/
def Ahead (left right : List UInt8) : Prop :=
  ∃ common first other rest otherRest,
    left = common ++ first :: rest ∧ right = common ++ other :: otherRest ∧ first < other

namespace Ahead

variable {left right : List UInt8}

theorem append (ahead : Ahead left right) (more otherMore : List UInt8) :
    Ahead (left ++ more) (right ++ otherMore) := by
  obtain ⟨common, first, other, rest, otherRest, rfl, rfl, less⟩ := ahead
  exact ⟨common, first, other, rest ++ more, otherRest ++ otherMore, by simp, by simp, less⟩

theorem lt (ahead : Ahead left right) : left < right := by
  obtain ⟨common, first, other, rest, otherRest, rfl, rfl, less⟩ := ahead
  exact List.append_left_lt (List.Lex.rel less)

end Ahead

def continuation : Nat → Nat → List UInt8
  | 0, _ => []
  | count + 1, code => continuation count (code / 64) ++ [UInt8.ofNat (code % 64 + 128)]

/-- A lead byte that holds the bits above `mark`, and `count` more bytes. -/
def spelled (mark count code : Nat) : List UInt8 :=
  UInt8.ofNat (code / 64 ^ count + mark) :: continuation count code

theorem of_nat_lt {small large : Nat} (less : small < large) (byte : large < 256) :
    UInt8.ofNat small < UInt8.ofNat large := by
  rw [UInt8.lt_iff_toNat_lt, UInt8.toNat_ofNat', UInt8.toNat_ofNat']
  omega

theorem spelled_succ (mark count code : Nat) :
    spelled mark (count + 1) code =
      spelled mark count (code / 64) ++ [UInt8.ofNat (code % 64 + 128)] := by
  rw [spelled, spelled, continuation, List.cons_append, Nat.pow_succ', Nat.div_div_eq_div_mul]

theorem spelled_ahead {mark count code other : Nat} (less : code < other)
    (lead : other / 64 ^ count + mark < 256) :
    Ahead (spelled mark count code) (spelled mark count other) := by
  induction count generalizing code other with
  | zero =>
    refine ⟨[], _, _, [], [], rfl, rfl, ?_⟩
    simp only [Nat.pow_zero, Nat.div_one] at lead ⊢
    exact of_nat_lt (by omega) lead
  | succ count induction =>
    rw [spelled_succ, spelled_succ]
    by_cases above : code / 64 < other / 64
    · rw [Nat.pow_succ', ← Nat.div_div_eq_div_mul] at lead
      exact (induction above lead).append _ _
    · -- the upper bits agree, so the last byte decides
      have same : code / 64 = other / 64 := by omega
      rw [same]
      exact ⟨spelled mark count (other / 64), _, _, [], [], rfl, rfl,
        of_nat_lt (by omega) (by omega)⟩

def width (code : Nat) : Nat :=
  if code ≤ 127 then 0 else if code ≤ 2047 then 1 else if code ≤ 65535 then 2 else 3

def leadMark : Nat → Nat
  | 0 => 0
  | 1 => 192
  | 2 => 224
  | _ => 240

theorem code_bound (char : Char) : char.toNat < 1114112 := by
  rcases char.valid with low | ⟨-, high⟩
  · exact Nat.lt_trans low (by decide)
  · exact high

theorem encode_eq (char : Char) :
    String.utf8EncodeChar char =
      spelled (leadMark (width char.toNat)) (width char.toNat) char.toNat := by
  have bound := code_bound char
  have same : char.val.toNat = char.toNat := rfl
  unfold String.utf8EncodeChar width
  rw [same]
  dsimp only
  split_ifs with one two three
  · simp [spelled, leadMark, continuation]
  · have lead : char.toNat / 64 % 32 = char.toNat / 64 := Nat.mod_eq_of_lt (by omega)
    simp [spelled, leadMark, continuation, lead]
  · have lead : char.toNat / 4096 % 16 = char.toNat / 4096 := Nat.mod_eq_of_lt (by omega)
    simp [spelled, leadMark, continuation, lead]
  · have lead : char.toNat / 262144 % 8 = char.toNat / 262144 := Nat.mod_eq_of_lt (by omega)
    simp [spelled, leadMark, continuation, lead, Nat.div_div_eq_div_mul]

theorem lead_bound {code : Nat} (bound : code < 1114112) :
    code / 64 ^ width code + leadMark (width code) < 256 := by
  unfold width
  split_ifs with one two three
  all_goals
    simp only [leadMark]
    omega

theorem lead_lt {code other : Nat} (wider : width code < width other) :
    code / 64 ^ width code + leadMark (width code) <
      other / 64 ^ width other + leadMark (width other) := by
  unfold width at wider ⊢
  split_ifs at wider ⊢
  all_goals
    simp only [leadMark] at wider ⊢
    omega

theorem encode_ahead {char other : Char} (less : char < other) :
    Ahead (String.utf8EncodeChar char) (String.utf8EncodeChar other) := by
  have codes : char.toNat < other.toNat := less
  have bound := code_bound other
  have narrow : width char.toNat ≤ width other.toNat := by
    unfold width
    split_ifs <;> omega
  rw [encode_eq, encode_eq]
  rcases Nat.lt_or_eq_of_le narrow with wider | same
  · exact ⟨[], _, _, _, _, rfl, rfl, of_nat_lt (lead_lt wider) (lead_bound bound)⟩
  · rw [same]
    exact spelled_ahead codes (lead_bound bound)

theorem flat_map_lt {chars others : List Char} (less : chars < others) :
    chars.flatMap String.utf8EncodeChar < others.flatMap String.utf8EncodeChar := by
  induction less with
  | nil =>
    rename_i first rest
    rw [List.flatMap_nil, List.flatMap_cons, encode_eq]
    exact List.Lex.nil
  | cons same induction =>
    rw [List.flatMap_cons, List.flatMap_cons]
    exact List.append_left_lt induction
  | rel less =>
    rw [List.flatMap_cons, List.flatMap_cons]
    exact ((encode_ahead less).append _ _).lt

end ByteOrder

theorem text_bytes_eq (text : String) :
    textBytes text = text.toList.flatMap String.utf8EncodeChar := by
  have split : text.toUTF8 = text.toList.utf8Encode := by
    rw [← String.toByteArray_ofList, String.ofList_toList]
    rfl
  rw [textBytes, split]
  exact List.toList_data_toByteArray

theorem text_bytes_lt_iff {left right : String} :
    textBytes left < textBytes right ↔ left < right := by
  have forward : ∀ {left right : String}, left < right → textBytes left < textBytes right := by
    intro left right less
    rw [text_bytes_eq, text_bytes_eq]
    exact ByteOrder.flat_map_lt (String.lt_iff_toList_lt.mp less)
  refine ⟨fun less => ?_, forward⟩
  rcases lt_trichotomy left right with below | rfl | above
  · exact below
  · exact absurd less (List.lt_irrefl _)
  · exact absurd (forward above) (List.lt_asymm less)

end WhileLang
