import WhileLang.Proofs.Progress
import WhileLang.Proofs.Recognition

/-!
# The image of the parser

Which trees are trees of sources: exactly the shaped ones. A derivation builds nothing else, and a
shaped tree is spelled with parentheses around every operation and braces around every branch, which
leave no trace in the tree.
-/

namespace WhileLang

set_option autoImplicit false

open Node (Role Fits)

/-- What a phrase yields fits the place where the phrase stands. -/
def Phrase.Fits : Phrase → Prop
  | .statements nodes => ∀ node ∈ nodes, Node.Fits .element node
  | .block _ node => Node.Fits .branch node
  | .statement _ node => Node.Fits .element node
  | .expression node | .binary _ node | .unary node | .factor node => Node.Fits .value node

theorem Phrase.fits_operand (level : Level) (node : Node) :
    (Phrase.operand level node).Fits ↔ Node.Fits .value node := by
  cases level <;> rfl

theorem Derives.fits {phrase : Phrase} {spelling : List Word} (derives : Derives phrase spelling)
    (written : ∀ word ∈ spelling, word.Written) : phrase.Fits := by
  induction derives with
  | none => simp [Phrase.Fits]
  | more _ _ first later =>
    rw [List.forall_mem_append] at written
    exact List.forall_mem_cons.mpr ⟨first written.1, later written.2⟩
  | braces _ joined body =>
    rw [joined_iff.mp joined]
    apply Node.Fits.of_statements
    apply body
    intro word member
    exact written word (by simp [member])
  | plain _ body => exact (body written).moved (fun _ => rfl) (by simp)
  | print _ body =>
    apply Node.Fits.print (by simp)
    apply body
    intro word member
    exact written word (by simp [member])
  | ifThen _ _ test body =>
    simp only [List.cons_append, List.forall_mem_cons, List.forall_mem_append] at written
    exact .ifThen (by simp) (test written.2.2.1) (body written.2.2.2.2)
  | ifElse _ _ _ test first second =>
    simp only [List.cons_append, List.append_assoc, List.forall_mem_cons, List.forall_mem_append]
      at written
    obtain ⟨_, _, inTest, _, inFirst, _, inSecond⟩ := written
    exact .ifElse (by simp) (test inTest) (first inFirst) (second inSecond)
  | whileLoop _ _ test body =>
    simp only [List.cons_append, List.forall_mem_cons, List.forall_mem_append] at written
    exact .whileLoop (by simp) (test written.2.2.1) (body written.2.2.2.2)
  | evaluate _ body =>
    rw [List.forall_mem_append] at written
    exact (body written.1).expression (body written.1).not_statement .element
  | assign _ body =>
    simp only [List.forall_mem_cons] at written
    exact .assign ((written_name_iff _).mp written.1) (body written.2.2)
  | value _ body => exact body written
  | apply op _ _ first second =>
    rw [List.forall_mem_append, List.forall_mem_cons] at written
    exact .binary op ((Phrase.fits_operand _ _).mp (first written.1)) (second written.2.2)
  | single _ body => exact (Phrase.fits_operand _ _).mp (body written)
  | signed op _ body =>
    rw [List.forall_mem_cons] at written
    exact .unary op (body written.2)
  | unsigned _ body => exact body written
  | reference text => exact .reference ((written_name_iff _).mp (written _ (by simp)))
  | literal digits => exact .literal (numeral_value_whole _)
  | group _ body =>
    apply body
    intro word member
    exact written word (by simp [member])

/-- There are words for the node in this role, and they can be written. -/
def Spellable : Role → Node → Prop
  | .value, node => ∃ spelling, Derives (.factor node) spelling ∧ ∀ word ∈ spelling, word.Written
  | .element, node =>
    ∃ dangling spelling, Derives (.statement dangling node) spelling ∧
      ∀ word ∈ spelling, word.Written
  | .branch, node => ∃ spelling, Spells spelling node ∧ ∀ word ∈ spelling, word.Written

namespace Spellable

variable {node : Node}

theorem of_element (spellable : Spellable .element node) {role : Role} (placed : role ≠ .value) :
    Spellable role node := by
  cases role with
  | value => exact absurd rfl placed
  | element => exact spellable
  | branch =>
    obtain ⟨dangling, spelling, derives, written⟩ := spellable
    refine ⟨spelling, ⟨[node], ?_, .single node⟩, written⟩
    have listed := Derives.more derives .none
    rwa [List.append_nil] at listed

theorem of_value (spellable : Spellable .value node) (role : Role) : Spellable role node := by
  by_cases same : role = .value
  · rw [same]
    exact spellable
  · apply of_element _ same
    obtain ⟨spelling, derives, written⟩ := spellable
    refine ⟨false, _, .evaluate derives.of_factor, ?_⟩
    exact List.forall_mem_append.mpr ⟨written, by decide⟩

theorem of_expression {spelling : List Word} (derives : Derives (.expression node) spelling)
    (written : ∀ word ∈ spelling, word.Written) (role : Role) : Spellable role node := by
  apply of_value
  refine ⟨_, .group derives, ?_⟩
  simp only [List.cons_append, List.forall_mem_cons, List.forall_mem_append]
  exact ⟨by decide, written, by decide⟩

theorem enclose (spellable : Spellable .branch node) :
    ∃ spelling, Derives (.block false node) spelling ∧ ∀ word ∈ spelling, word.Written := by
  obtain ⟨spelling, ⟨nodes, derives, joined⟩, written⟩ := spellable
  refine ⟨_, .braces derives joined, ?_⟩
  simp only [List.cons_append, List.forall_mem_cons, List.forall_mem_append]
  exact ⟨by decide, written, by decide⟩

theorem all {nodes : List Node} (elements : ∀ node ∈ nodes, Spellable .element node) :
    ∃ spelling, Derives (.statements nodes) spelling ∧ ∀ word ∈ spelling, word.Written := by
  induction nodes with
  | nil => exact ⟨[], .none, by simp⟩
  | cons first rest induction =>
    obtain ⟨head, tail⟩ := List.forall_mem_cons.mp elements
    obtain ⟨dangling, front, firstDerives, firstWritten⟩ := head
    obtain ⟨back, restDerives, restWritten⟩ := induction tail
    exact ⟨_, .more firstDerives restDerives,
      List.forall_mem_append.mpr ⟨firstWritten, restWritten⟩⟩

end Spellable

theorem written_operator (op : BinaryOp) : (Word.symbol op.symbol).Written := by
  rcases op with op | op | op | op <;> cases op <;> decide

theorem written_sign (op : UnaryOp) : (Word.symbol op.symbol).Written := by
  cases op <;> decide

theorem Node.Fits.spellable {role : Role} {node : Node} (fits : Fits role node) :
    Spellable role node := by
  induction fits with
  | block plural _ elements =>
    obtain ⟨spelling, derives, written⟩ := Spellable.all elements
    exact ⟨spelling, ⟨_, derives, .several plural⟩, written⟩
  | ifThen placed _ _ test first =>
    obtain ⟨head, tests, testWritten⟩ := test
    obtain ⟨body, encloses, bodyWritten⟩ := first.enclose
    apply Spellable.of_element _ placed
    refine ⟨true, _, .ifThen tests.of_factor encloses, ?_⟩
    simp only [List.cons_append, List.forall_mem_cons, List.forall_mem_append]
    exact ⟨by decide, by decide, testWritten, by decide, bodyWritten⟩
  | ifElse placed _ _ _ test first second =>
    obtain ⟨head, tests, testWritten⟩ := test
    obtain ⟨body, encloses, bodyWritten⟩ := first.enclose
    obtain ⟨other, otherEncloses, otherWritten⟩ := second.enclose
    apply Spellable.of_element _ placed
    refine ⟨false, _, .ifElse tests.of_factor encloses otherEncloses, ?_⟩
    simp only [List.cons_append, List.append_assoc, List.forall_mem_cons, List.forall_mem_append]
    exact ⟨by decide, by decide, testWritten, by decide, bodyWritten, by decide, otherWritten⟩
  | whileLoop placed _ _ test inner =>
    obtain ⟨head, tests, testWritten⟩ := test
    obtain ⟨body, encloses, bodyWritten⟩ := inner.enclose
    apply Spellable.of_element _ placed
    refine ⟨false, _, .whileLoop tests.of_factor encloses, ?_⟩
    simp only [List.cons_append, List.forall_mem_cons, List.forall_mem_append]
    exact ⟨by decide, by decide, testWritten, by decide, bodyWritten⟩
  | print placed _ inner =>
    obtain ⟨spelling, derives, written⟩ := inner
    apply Spellable.of_element _ placed
    refine ⟨false, _, .print derives.of_factor, ?_⟩
    simp only [List.cons_append, List.forall_mem_cons, List.forall_mem_append]
    exact ⟨by decide, written, by decide⟩
  | assign named _ inner =>
    obtain ⟨spelling, derives, written⟩ := inner
    apply Spellable.of_expression (.assign derives.of_factor)
    simp only [List.forall_mem_cons]
    exact ⟨(written_name_iff _).mpr named, by decide, written⟩
  | binary op _ _ first second =>
    obtain ⟨front, derives, frontWritten⟩ := first
    obtain ⟨back, behind, backWritten⟩ := second
    have left := (Derives.unsigned derives).operand_of_unary op.level
    have right := Derives.single ((Derives.unsigned behind).operand_of_unary op.level)
    apply Spellable.of_expression (.of_binary (.apply op left right))
    simp only [List.forall_mem_cons, List.forall_mem_append]
    exact ⟨frontWritten, written_operator op, backWritten⟩
  | unary op _ inner =>
    obtain ⟨spelling, derives, written⟩ := inner
    apply Spellable.of_expression (.of_unary (.signed op (.unsigned derives)))
    exact List.forall_mem_cons.mpr ⟨written_sign op, written⟩
  | @reference role name named =>
    apply Spellable.of_value
    exact ⟨_, .reference name, by simpa using (written_name_iff name).mpr named⟩
  | literal whole =>
    obtain ⟨number, rfl⟩ := exists_numeral whole
    apply Spellable.of_value
    refine ⟨[.numeral (String.ofList (Nat.toDigits 10 number))], ?_,
      by simpa using written_number number⟩
    have literal := Derives.literal (String.ofList (Nat.toDigits 10 number))
    rwa [String.toList_ofList] at literal

theorem shaped_of_parse {source : String} {tree : Node} (accepted : parse source = .ok tree) :
    tree.Shaped := by
  obtain ⟨nodes, tokens, tail, feed, derives, _, rfl⟩ := feed_of_parse accepted
  obtain ⟨last, yields, _, unfinished⟩ := Scanner.yields_of_feed_eq feed
  exact (Node.Fits.of_statements (derives.fits (yields.written unfinished))).shaped

theorem exists_source {tree : Node} (shaped : tree.Shaped) : ∃ source, parse source = .ok tree := by
  obtain ⟨spelling, spells, written⟩ := (Node.shaped_iff_fits.mp shaped).spellable
  have shows : Shows (String.ofList (render spelling)).toList spelling := by
    rw [String.toList_ofList]
    exact shows_render written
  exact ⟨_, parse_of_shows shows spells⟩

/-- Exactly the shaped trees are trees of sources. However long such a tree is run, no statement is
met where a value is needed. -/
theorem parse_image (tree : Node) :
    ((∃ source, parse source = .ok tree) ↔ tree.Shaped) ∧
      ∀ source, parse source = .ok tree → ∀ budget machine,
        Machine.run budget tree machine =
            Machine.conclusion (Machine.progress budget tree machine) ∧
          (Machine.progress budget tree machine).1.ignored = machine.ignored := by
  constructor
  · constructor
    · rintro ⟨source, accepted⟩
      exact shaped_of_parse accepted
    · exact exists_source
  · intro source accepted budget machine
    refine ⟨Machine.run_eq_progress budget tree machine, ?_⟩
    exact Machine.ignored_progress budget
      (Node.shaped_iff_fits.mp (shaped_of_parse accepted)) machine

theorem parse_image_loop :
    parse "while (x) \x7b print x; y = !x; \x7d" =
        .ok (.whileLoop (.reference "x")
          (.block [.print (.reference "x"), .assign "y" (.unary .not (.reference "x"))])) ∧
      (Machine.progress 100 (.whileLoop (.reference "x")
          (.block [.print (.reference "x"), .assign "y" (.unary .not (.reference "x"))]))
        ⟨Store.empty.set "x" 1, []⟩).1.ignored = [] := by
  have accepted : parse "while (x) \x7b print x; y = !x; \x7d" =
      .ok (.whileLoop (.reference "x")
        (.block [.print (.reference "x"), .assign "y" (.unary .not (.reference "x"))])) := by
    cbv
  exact ⟨accepted, ((parse_image _).2 _ accepted 100 _).2⟩

end WhileLang
