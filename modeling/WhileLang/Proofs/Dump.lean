import WhileLang.Proofs.ByteOrder
import WhileLang.Proofs.Dependence
import WhileLang.Proofs.Reporting

/-!
# Seeds and the dump of variables

A run starts from the variables of the settings and of the command, of which the latest counts. At
its end every variable is shown once, in the order of the bytes of the names, so that no other
arrangement of the variables could show. A name to which the program does not assign is shown if and
only if it was seeded.
-/

namespace WhileLang

set_option autoImplicit false

namespace Store

theorem lookup_singleton (pair : String × Float) (name : String) :
    [pair].lookup name = if pair.1 = name then some pair.2 else none := by
  by_cases same : pair.1 = name
  · simp [List.lookup, same]
  · simp [List.lookup, same, beq_eq_false_iff_ne.mpr (Ne.symm same)]

/-- Of several pairs with one name the last counts. -/
theorem get_set_all (store : Store) (pairs : List (String × Float)) (name : String) :
    (store.setAll pairs).get? name = (pairs.reverse.lookup name).or (store.get? name) := by
  induction pairs generalizing store with
  | nil => rfl
  | cons pair pairs induction =>
    have step : store.setAll (pair :: pairs) = (store.set pair.1 pair.2).setAll pairs := rfl
    rw [step, induction, get_set, List.reverse_cons, List.lookup_append, lookup_singleton,
      Option.or_assoc]
    split
    · rfl
    · rfl

theorem mem_to_list_iff (store : Store) (name : String) (value : Float) :
    (name, value) ∈ store.toList ↔ store.get? name = some value :=
  Std.TreeMap.mem_toList_iff_getElem?_eq_some

theorem to_list_ascending (store : Store) :
    store.toList.Pairwise fun left right => textBytes left.1 < textBytes right.1 := by
  apply List.Pairwise.imp _ Std.TreeMap.ordered_keys_toList
  intro left right less
  exact text_bytes_lt_iff.mpr (compare_lt_iff_lt.mp less)

theorem lookup_reverse_to_list (store : Store) (name : String) :
    store.toList.reverse.lookup name = store.get? name := by
  cases found : store.toList.reverse.lookup name with
  | some value =>
    obtain ⟨before, after, split, -⟩ := List.lookup_eq_some_iff.mp found
    have member : (name, value) ∈ store.toList.reverse := by simp [split]
    exact ((mem_to_list_iff store name value).mp (List.mem_reverse.mp member)).symm
  | none =>
    -- a stored name would be found
    cases stored : store.get? name with
    | none => rfl
    | some value =>
      have member := List.mem_reverse.mpr ((mem_to_list_iff store name value).mpr stored)
      exact absurd (List.lookup_eq_none_iff.mp found _ member) (by simp)

theorem get_set_all_to_list (store : Store) (pairs : List (String × Float)) (name : String) :
    (Store.empty.setAll (store.toList ++ pairs)).get? name =
      (pairs.reverse.lookup name).or (store.get? name) := by
  have none : Store.empty.get? name = none := by
    simp [get?, empty]
  rw [get_set_all, List.reverse_append, List.lookup_append, lookup_reverse_to_list, none,
    Option.or_none]

end Store

def byName (left right : String × Float) : Bool :=
  decide (textBytes left.1 ≤ textBytes right.1)

theorem by_name_iff {left right : String × Float} :
    byName left right = true ↔ left.1 ≤ right.1 := by
  rw [byName, decide_eq_true_iff, ← List.not_lt, text_bytes_lt_iff, not_lt]

/-- However the variables are listed, sorting them by name shows the same. -/
theorem merge_sort_by_name {listing shown : List (String × Float)} (same : listing.Perm shown)
    (ascending : shown.Pairwise fun left right => textBytes left.1 < textBytes right.1) :
    listing.mergeSort byName = shown := by
  have sorted : (listing.mergeSort byName).Pairwise fun left right => byName left right = true := by
    apply List.pairwise_mergeSort
    · intro first second third lower upper
      exact by_name_iff.mpr (le_trans (by_name_iff.mp lower) (by_name_iff.mp upper))
    · intro left right
      rw [Bool.or_eq_true, by_name_iff, by_name_iff]
      exact le_total left.1 right.1
  have arranged : shown.Pairwise fun left right => byName left right = true := by
    apply ascending.imp
    intro left right less
    exact by_name_iff.mpr (le_of_lt (text_bytes_lt_iff.mp less))
  have permuted : (listing.mergeSort byName).Perm shown := (List.mergeSort_perm _ _).trans same
  have distinct : (shown.map Prod.fst).Nodup := by
    apply List.pairwise_map.mpr
    apply ascending.imp
    intro left right less
    exact ne_of_lt (text_bytes_lt_iff.mp less)
  apply List.Perm.eq_of_pairwise _ sorted arranged permuted
  intro left right member otherMember lower upper
  apply List.inj_on_of_nodup_map distinct (permuted.mem_iff.mp member) otherMember
  exact le_antisymm (by_name_iff.mp lower) (by_name_iff.mp upper)

namespace Machine

variable {tree : Node} {last : Machine}

/-- The lines of an execution and the variables behind it depend only on what is in the store before
it. -/
theorem Ends.of_same_variables {store other : Store} (ends : Ends tree ⟨store, []⟩ last)
    (same : ∀ name, store.get? name = other.get? name) :
    ∃ otherLast, Ends tree ⟨other, []⟩ otherLast ∧ otherLast.output = last.output ∧
      ∀ name, otherLast.store.get? name = last.store.get? name := by
  have agree : Agree tree ⟨store, []⟩ ⟨other, []⟩ := by
    intro name _
    rw [Store.read, Store.read, same]
  obtain ⟨otherLast, otherEnds, trace, -, left, right⟩ := ends.in_step agree
  refine ⟨otherLast, otherEnds, ?_, ?_⟩
  · rw [left.output, right.output]
    rfl
  · intro name
    rw [left.stored, right.stored, same]

end Machine

namespace Outcome

variable {text path : String} {tree : Node} {seeds : List (String × Float)} {last : Machine}
    {budget : Nat}

theorem output_parsing (source : String) (parsing : Parsing) :
    (Effect.ofParsing source parsing).filterMap (·.output? .accepting) = [] :=
  List.filterMap_eq_nil_iff.mpr Effect.unwritten_parsing

theorem output_run (node : Node) (machine : Machine) :
    (Effect.ofRun node machine).filterMap (·.output? .accepting) = machine.output := by
  rw [Effect.ofRun, List.filterMap_cons_none rfl, List.filterMap_map, Machine.output,
    Machine.printed, List.map_filterMap]
  congr 1
  funext event
  cases event with
  | printed value => rfl
  | assigned name value => rfl
  | entered count => rfl
  | ignored statement => rfl

theorem output_log (level : LogLevel) (target message : String) :
    [Effect.ofLog level target message].filterMap (·.output? .accepting) = [] := rfl

theorem output_seeds (seeds : List (String × Float)) :
    (seeds.map Effect.ofSeed).filterMap (·.output? .accepting) = [] := by
  rw [List.filterMap_map, List.filterMap_eq_nil_iff]
  intro seed _
  rfl

theorem output_lines (lines : List String) :
    (lines.map Effect.line).filterMap (·.output? .accepting) = lines := by
  rw [List.filterMap_map]
  exact List.filterMap_some

theorem output_of_run (parsed : parse text = .ok tree)
    (ended : Machine.run budget tree ⟨Store.empty.setAll seeds, []⟩ = some last) :
    ∃ outcome, ofRun budget path (.ok text) seeds true = some outcome ∧ outcome.failure = none ∧
      outcome.effects.filterMap (·.output? .accepting) =
        last.output ++ last.store.toList.map dumpLine := by
  refine ⟨_, by rw [ofRun, of_program_eq parsed, ended]; rfl, rfl, ?_⟩
  have shown : last.store.toList.map (Effect.line <| dumpLine ·) =
      (last.store.toList.map dumpLine).map .line :=
    List.map_map.symm
  simp only [List.filterMap_append, output_parsing, output_run, output_seeds, output_log,
    if_pos, shown, output_lines, List.nil_append, List.append_nil]

end Outcome

theorem Report.output_of_outcome {logging : Logging} {outcome : Outcome}
    (succeeds : outcome.failure = none) :
    (Report.ofOutcome logging outcome).output .accepting =
      String.join ((outcome.effects.filterMap (·.output? .accepting)).map (· ++ "\n")) := by
  simp only [output, ofOutcome, Outcome.all, succeeds]
  rfl

namespace Invocation

variable {World : Type} {disk : Disk (StateM World)} {stamp : String} {words : List String}
    {request : Request}
variable {settings : Settings} {logging : Logging} {world started : World}

/-- A run that dumps its variables writes what the program prints from the seeds, and then all
variables by ascending name, one line each. -/
theorem dump_shows_variables (accepted : CommandLine.read words = .ok request)
    (ready : (start disk stamp request).run.run world = (.ok (settings, logging), started))
    {path text : String} {seeds : List (String × Float)}
    (dumps : request.command = .run path seeds true)
    (content : disk.content started path = .ok text) {tree : Node} (parsed : parse text = .ok tree)
    {seeded : Store}
    (seeding : ∀ name, seeded.get? name = (seeds.reverse.lookup name).or (settings.store.get? name))
    {last : Machine} (ends : Machine.Ends tree ⟨seeded, []⟩ last) :
    ∃ shown : List (String × Float),
      (∃ enough, ∀ budget, enough ≤ budget →
        ∃ report, ((Invocation.report disk stamp budget words).run world).1 = some report ∧
          report.output .accepting = String.join
            ((last.output ++ shown.map fun pair => pair.1 ++ " = " ++ printNumber pair.2).map
              (· ++ "\n"))) ∧
      (∀ name value, (name, value) ∈ shown ↔ last.store.get? name = some value) ∧
      (shown.Pairwise fun left right => textBytes left.1 < textBytes right.1) ∧
      (∀ listing : List (String × Float), listing.Perm shown →
        listing.mergeSort (fun left right => decide (textBytes left.1 ≤ textBytes right.1)) =
          shown) ∧
      ∀ name ∉ tree.targets, ∀ value,
        (name, value) ∈ shown ↔
          (seeds.reverse.lookup name).or (settings.store.get? name) = some value := by
  have same : ∀ name, seeded.get? name =
      (Store.empty.setAll (settings.store.toList ++ seeds)).get? name := by
    intro name
    rw [seeding, Store.get_set_all_to_list]
  obtain ⟨final, ⟨enough, ended⟩, lines, values⟩ := ends.of_same_variables same
  have stored : ∀ name value,
      (name, value) ∈ final.store.toList ↔ last.store.get? name = some value := by
    intro name value
    rw [Store.mem_to_list_iff, values]
  have ascending := final.store.to_list_ascending
  refine ⟨final.store.toList, ⟨enough, ?_⟩, stored, ascending, ?_, ?_⟩
  · intro budget larger
    obtain ⟨outcome, answered, succeeds, written⟩ :=
      Outcome.output_of_run parsed (Machine.run_mono larger ended)
    refine ⟨.ofOutcome logging outcome, ?_, ?_⟩
    · rw [report_run accepted ready, dumps, perform_run, content, answered]
      rfl
    · rw [Report.output_of_outcome succeeds, written, lines]
      rfl
  · intro listing permuted
    exact merge_sort_by_name permuted ascending
  · intro name free value
    obtain ⟨trace, source, adds⟩ := ends.adds
    rw [stored, adds.frame source free, seeding]

/-- A folder with a program that prints a seed and stores it under another name. -/
def copying : FileTree :=
  ⟨[(["copy.wl"], "print a; b = a;".toUTF8)], []⟩

/-- Of two seeds for one name the second is printed, stored and shown. -/
theorem dump_shows_variables_override :
    ∃ shown : List (String × Float),
      (∃ enough, ∀ budget, enough ≤ budget →
        ∃ report,
          ((Invocation.report FileTree.disk "" budget
              ["run", "copy.wl", "-v", "--dump-vars", "--var", "a=inf", "--var", "a=-inf"]).run
            copying).1 = some report ∧
          report.output .accepting = String.join
            ((["-Infinity"] ++ shown.map fun pair => pair.1 ++ " = " ++ printNumber pair.2).map
              (· ++ "\n"))) ∧
      ∀ value, ("a", value) ∈ shown ↔ floatOfMagnitude true Magnitude.infinity = value := by
  let seeds :=
    [("a", floatOfMagnitude false Magnitude.infinity),
      ("a", floatOfMagnitude true Magnitude.infinity)]
  let tree : Node := .block [.print (.reference "a"), .assign "b" (.reference "a")]
  have accepted :
      CommandLine.read
          ["run", "copy.wl", "-v", "--dump-vars", "--var", "a=inf", "--var", "a=-inf"] =
        .ok ⟨none, true, .run "copy.wl" seeds true⟩ := rfl
  have ready : (start FileTree.disk "" ⟨none, true, .run "copy.wl" seeds true⟩).run.run copying =
      (.ok ({}, ⟨.upTo .debug, none⟩), copying) := rfl
  have content : FileTree.disk.content copying "copy.wl" = .ok "print a; b = a;" := by
    show copying.readText "copy.wl" = _
    decide +kernel
  have parsed : parse "print a; b = a;" = .ok tree := by cbv
  have seeding : ∀ name, (Store.empty.setAll seeds).get? name =
      (seeds.reverse.lookup name).or (Store.empty.get? name) := Store.get_set_all _ _
  obtain ⟨last, ends, lines⟩ : ∃ last, Machine.Ends tree ⟨Store.empty.setAll seeds, []⟩ last ∧
      last.output = ["-Infinity"] := ⟨_, ⟨3, rfl⟩, by decide +kernel⟩
  have unassigned : "a" ∉ tree.targets := by decide
  obtain ⟨shown, written, -, -, -, kept⟩ :=
    dump_shows_variables accepted ready rfl content parsed seeding ends
  rw [lines] at written
  refine ⟨shown, written, fun value => ?_⟩
  rw [kept "a" unassigned value]
  exact Option.some_inj

end Invocation

end WhileLang
