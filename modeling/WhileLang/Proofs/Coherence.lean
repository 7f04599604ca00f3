import WhileLang.Proofs.CursorIndex
import WhileLang.Scanner.Trail

/-!
# Where a scanner stands

A scanner moves over characters and never looks back at them, yet its line and its column are always
those that counting the characters before it would give. Reading, also of what is no token, looking,
skipping blanks, keeping a place and returning to a kept one all leave it so. Asking for the next
token moves on until the end of the source is reached, and from there it changes nothing any more.
-/

namespace WhileLang

set_option autoImplicit false

namespace Scanner

/-- The scanner has the source ahead of it from its place on, and the line and the column of its
place are counted from what the source has before it. -/
structure Coherent (source : List Char) (scanner : Scanner) : Prop where
  within : scanner.place.offset ≤ source.length
  ahead : scanner.rest = source.drop scanner.place.offset
  line : scanner.place.line = .ofNat (lineBehind (source.take scanner.place.offset))
  column : scanner.place.column = .ofNat (columnBehind (source.take scanner.place.offset))

variable {source : List Char} {scanner : Scanner}

theorem coherent_iff :
    scanner.Coherent source ↔
      ∃ before, source = before ++ scanner.rest ∧ scanner.place = Place.start.afterAll before := by
  constructor
  · intro coherent
    refine ⟨source.take scanner.place.offset, ?_, ?_⟩
    · rw [coherent.ahead, List.take_append_drop]
    · rw [Place.after_all_start, ← coherent.line, ← coherent.column, List.length_take,
        Nat.min_eq_left coherent.within]
  · rintro ⟨before, whole, place⟩
    have offset : scanner.place.offset = before.length := by rw [place, Place.after_all_start]
    have front : source.take scanner.place.offset = before := by rw [offset, whole, List.take_left]
    constructor
    · rw [offset, whole, List.length_append]
      omega
    · rw [offset, whole, List.drop_left]
    · rw [front, place, Place.after_all_start]
    · rw [front, place, Place.after_all_start]

namespace Coherent

theorem of_string (source : String) : (Scanner.ofString source).Coherent source.toList :=
  coherent_iff.mpr ⟨[], rfl, rfl⟩

theorem forward (coherent : scanner.Coherent source) (count : Nat) :
    (scanner.forward count).Coherent source := by
  obtain ⟨before, whole, place⟩ := coherent_iff.mp coherent
  apply coherent_iff.mpr
  refine ⟨before ++ scanner.rest.take count, ?_, ?_⟩
  · rw [Scanner.forward, List.append_assoc, List.take_append_drop]
    exact whole
  · rw [Scanner.forward, Place.after_all_append, place]

theorem skip_blanks (coherent : scanner.Coherent source) : scanner.skipBlanks.Coherent source :=
  coherent.forward _

/-- Also a fault leaves the scanner coherent, behind the character that is no token. -/
theorem next (coherent : scanner.Coherent source) : scanner.next.2.Coherent source := by
  unfold Scanner.next
  dsimp only
  cases lexeme scanner.skipBlanks.rest with
  | token kind text => exact coherent.skip_blanks.forward text.length
  | lone symbol => exact coherent.skip_blanks.forward 1
  | finished => exact coherent.skip_blanks

theorem resume_eq (coherent : scanner.Coherent source) : resume source scanner.place = scanner := by
  rw [resume, ← coherent.ahead]

theorem offset_add_rest (coherent : scanner.Coherent source) :
    scanner.place.offset + scanner.rest.length = source.length := by
  rw [coherent.ahead, List.length_drop]
  exact Nat.add_sub_of_le coherent.within

theorem offset_lt (coherent : scanner.Coherent source) {after : Scanner}
    (behind : after.Coherent source) (shorter : after.rest.length < scanner.rest.length) :
    scanner.place.offset < after.place.offset := by
  have here := coherent.offset_add_rest
  have there := behind.offset_add_rest
  omega

end Coherent

/-- A fault is found behind what it is about, so that it is not found again. -/
theorem next_shortens_of_fault {after : Scanner} {fault : Fault}
    (taken : scanner.next = (.error fault, after)) : after.rest.length < scanner.rest.length := by
  obtain ⟨rest, place⟩ := scanner
  rcases front_cases rest with
    blank | ⟨gap, symbol, behind, blank, single, apart, rfl⟩ |
      ⟨gap, kind, text, behind, blank, takes, rfl⟩
  · rw [next_of_blanks blank] at taken
    cases taken
  · rw [next_of_lone blank single apart] at taken
    cases taken
    dsimp only
    rw [List.length_append, List.length_cons]
    omega
  · rw [next_of_takes blank takes] at taken
    cases taken

theorem rest_of_finish {after : Scanner} {token : Token} (taken : scanner.next = (.ok token, after))
    (finished : token.kind = .endOfFile) : after.rest = [] := by
  rw [next_of_blanks (blank_of_finish taken finished)] at taken
  cases taken
  rfl

namespace Coherent

theorem moves_or_ends (coherent : scanner.Coherent source) :
    scanner.place.offset < scanner.next.2.place.offset ∨
      ∃ token, scanner.next.1 = .ok token ∧ token.kind = .endOfFile := by
  have behind := coherent.next
  cases taken : scanner.next with
  | mk outcome after =>
    rw [taken] at behind
    cases outcome with
    | error fault => exact .inl (coherent.offset_lt behind (next_shortens_of_fault taken))
    | ok token =>
      by_cases finished : token.kind = .endOfFile
      · exact .inr ⟨token, rfl, finished⟩
      · exact .inl (coherent.offset_lt behind (next_shortens taken finished))

theorem offset_of_finish (coherent : scanner.Coherent source) {token : Token}
    (answered : scanner.next.1 = .ok token) (finished : token.kind = .endOfFile) :
    scanner.next.2.place.offset = source.length := by
  have ended := rest_of_finish (Prod.ext answered rfl) finished
  have whole := coherent.next.offset_add_rest
  rwa [ended, List.length_nil, Nat.add_zero] at whole

end Coherent

end Scanner

namespace Trail

/-- The scanner of the trail is coherent, and so is one that returns to a kept place. -/
structure Coherent (source : String) (trail : Trail) : Prop where
  origin : trail.source = source.toList
  stands : trail.scanner.Coherent source.toList
  returns : ∀ place ∈ trail.kept, (Scanner.resume source.toList place).Coherent source.toList

/-- Asking for the next token here moves on, or the file has ended. If it has, then the scanner is
at the end of the source, and asking again, as often as one likes, gives the same answer and changes
nothing. -/
structure Proceeds (trail : Trail) : Prop where
  moves : trail.scanner.place.offset < (trail.step .next).2.scanner.place.offset ∨
    ∃ token, (trail.step .next).1 = .token (.ok token) ∧ token.kind = .endOfFile
  closes : ∀ token, (trail.step .next).1 = .token (.ok token) → token.kind = .endOfFile →
    (trail.step .next).2.scanner.place.offset = trail.source.length ∧
      ∀ count, (trail.step .next).2.walk (List.replicate count .next) =
        List.replicate count (trail.step .next)

def visited (trail : Trail) (steps : List Step) : List Trail :=
  trail :: (trail.walk steps).map Prod.snd

variable {source : String} {trail : Trail} {reply : Reply}

theorem Coherent.goto (coherent : trail.Coherent source) {place : Place}
    (member : place ∈ trail.kept) :
    (trail.goto place).Coherent source where
  origin := coherent.origin
  stands := by
    rw [Trail.goto, coherent.origin]
    exact coherent.returns place member
  returns := coherent.returns

theorem Coherent.keep (coherent : trail.Coherent source) :
    (trail.step .keep).2.Coherent source where
  origin := coherent.origin
  stands := coherent.stands
  returns := by
    intro place member
    rcases List.mem_append.mp member with earlier | latest
    · exact coherent.returns place earlier
    · rw [List.mem_singleton.mp latest, coherent.stands.resume_eq]
      exact coherent.stands

/-- One step, if it is not a jump to a place that was never kept, leaves a coherent trail
coherent. -/
theorem Coherent.step (coherent : trail.Coherent source) {step : Step}
    (bound : ∀ place, step ≠ .jump place) :
    (trail.step step).2.Coherent source := by
  cases step with
  | next => exact ⟨coherent.origin, coherent.stands.next, coherent.returns⟩
  | peek => exact coherent
  | consume => exact ⟨coherent.origin, coherent.stands.forward 1, coherent.returns⟩
  | skipBlanks => exact ⟨coherent.origin, coherent.stands.skip_blanks, coherent.returns⟩
  | keep => exact coherent.keep
  | restore index =>
    cases found : trail.kept[index]? with
    | none => simpa only [Trail.step, found] using coherent
    | some place =>
      simpa only [Trail.step, found] using coherent.goto (List.mem_of_getElem? found)
  | jump place => exact absurd rfl (bound place)

theorem Coherent.visited (coherent : trail.Coherent source) (steps : List Step)
    (bound : ∀ place, .jump place ∉ steps) :
    ∀ stop ∈ trail.visited steps, stop.Coherent source := by
  induction steps generalizing trail with
  | nil => exact List.forall_mem_singleton.mpr coherent
  | cons first steps induction =>
    have moved : (trail.step first).2.Coherent source := by
      apply coherent.step
      rintro place rfl
      exact bound place List.mem_cons_self
    have later :=
      induction moved fun place member => bound place (List.mem_cons_of_mem first member)
    exact List.forall_mem_cons.mpr ⟨coherent, later⟩

theorem coherent_of_string (source : String) : (ofString source).Coherent source where
  origin := rfl
  stands := .of_string source
  returns := by simp [ofString]

theorem walk_next_repeats (still : trail.step .next = (reply, trail)) (count : Nat) :
    trail.walk (List.replicate count .next) = List.replicate count (reply, trail) := by
  induction count with
  | zero => rfl
  | succ count induction =>
    rw [List.replicate_succ, List.replicate_succ, walk, still]
    exact congrArg ((reply, trail) :: ·) induction

theorem step_next_again {token : Token} (answered : trail.scanner.next.1 = .ok token)
    (finished : token.kind = .endOfFile) : (trail.step .next).2.step .next = trail.step .next := by
  have again := Scanner.next_of_finish (Prod.ext answered rfl) finished
  simp only [step, again, answered]

theorem Coherent.proceeds (coherent : trail.Coherent source) : trail.Proceeds where
  moves := by
    rcases coherent.stands.moves_or_ends with moved | ⟨token, answered, finished⟩
    · exact .inl moved
    · exact .inr ⟨token, congrArg Reply.token answered, finished⟩
  closes := by
    intro token reply finished
    have answered : trail.scanner.next.1 = .ok token := Reply.token.inj reply
    constructor
    · rw [coherent.origin]
      exact coherent.stands.offset_of_finish answered finished
    · exact walk_next_repeats (step_next_again answered finished)

/-- Whatever steps are taken, short of jumping to a place that was never kept, the scanner stands at
all times where its line and its column say, and it comes nearer to the end of the source with every
token and fault. -/
theorem walk_coherent (source : String) (steps : List Step) (bound : ∀ place, .jump place ∉ steps) :
    ∀ stop ∈ (ofString source).visited steps, stop.Coherent source ∧ stop.Proceeds := by
  intro stop member
  have coherent := (coherent_of_string source).visited steps bound stop member
  exact ⟨coherent, coherent.proceeds⟩

/-- A lone `&` is passed, the line behind it is entered, and a place before both is returned to. -/
theorem walk_coherent_returned :
    ∃ stop ∈ (ofString "a&\n b").visited [.next, .keep, .next, .next, .next, .restore 0, .consume,
      .skipBlanks],
      stop.scanner.place = ⟨4, 2, 2⟩ ∧ stop.Coherent "a&\n b" ∧ stop.Proceeds := by
  have visits :=
    walk_coherent "a&\n b" [.next, .keep, .next, .next, .next, .restore 0, .consume, .skipBlanks]
    (by simp)
  refine ⟨_, List.getLast_mem (List.cons_ne_nil _ _), rfl,
    visits _ (List.getLast_mem (List.cons_ne_nil _ _))⟩

end Trail

end WhileLang
