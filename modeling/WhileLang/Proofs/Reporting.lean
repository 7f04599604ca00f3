import WhileLang.Invocation
import WhileLang.Proofs.Execution

/-!
# Reports of failures

The parts that read and run a program tell what they do by records of the two lowest levels, and the
commands by records of the next one; none of them tells a failure. A command that fails says why,
and the one record of it stands behind all others. It has then written nothing, because a program is
not run before all of it is parsed.
-/

namespace WhileLang

set_option autoImplicit false

def LogRecord.fromLanguage (record : LogRecord) : Bool :=
  "minilang_core::language::".toList.isPrefixOf record.target.toList

structure LogRecord.Routine (record : LogRecord) : Prop where
  mild : record.level ≠ .error ∧ record.level ≠ .warn
  detail : record.fromLanguage = true → record.level = .debug ∨ record.level = .trace

namespace Effect

def Routine (effect : Effect) : Prop :=
  ∀ record, effect.record? .accepting = some record → record.Routine

theorem routine_detail {level : LogLevel} (low : level = .debug ∨ level = .trace)
    (target message : String) :
    (ofLog level target message).Routine := by
  rintro record ⟨⟩
  refine ⟨?_, fun _ => low⟩
  rcases low with rfl | rfl
  · exact ⟨nofun, nofun⟩
  · exact ⟨nofun, nofun⟩

theorem routine_info {target : String}
    (outside : LogRecord.fromLanguage ⟨.info, target, ""⟩ = false)
    (message : String) : (ofLog .info target message).Routine := by
  rintro record ⟨⟩
  refine ⟨⟨nofun, nofun⟩, fun inside => ?_⟩
  cases inside.symm.trans outside

theorem routine_line (text : String) : (line text).Routine := by
  rintro record ⟨⟩

theorem mem_of_parsing {source : String} {parsing : Parsing} {effect : Effect}
    (member : effect ∈ ofParsing source parsing) :
    ∃ level target message, effect = ofLog level target message ∧
      (level = .debug ∨ level = .trace) := by
  simp only [ofParsing, List.cons_append, List.mem_cons, List.mem_append, List.mem_map] at member
  rcases member with rfl | ⟨token, -, rfl⟩ | last
  · exact ⟨_, _, _, rfl, .inl rfl⟩
  · exact ⟨_, _, _, rfl, .inr rfl⟩
  · cases outcome : parsing.outcome with
    | ok node =>
      rw [outcome] at last
      exact ⟨_, _, _, List.mem_singleton.mp last, .inl rfl⟩
    | error fault =>
      rw [outcome] at last
      cases last

theorem routine_parsing {source : String} {parsing : Parsing} :
    ∀ effect ∈ ofParsing source parsing, effect.Routine := by
  intro effect member
  obtain ⟨level, target, message, rfl, low⟩ := mem_of_parsing member
  exact routine_detail low target message

theorem unwritten_parsing {source : String} {parsing : Parsing} :
    ∀ effect ∈ ofParsing source parsing, effect.output? .accepting = none := by
  intro effect member
  obtain ⟨level, target, message, rfl, -⟩ := mem_of_parsing member
  rfl

theorem routine_event (event : Event) : (ofEvent event).Routine := by
  cases event with
  | printed value => rintro record ⟨⟩
  | assigned name value => exact routine_detail (.inr rfl) _ _
  | entered count => exact routine_detail (.inr rfl) _ _
  | ignored statement => exact routine_detail (.inr rfl) _ _

theorem routine_run (node : Node) (machine : Machine) :
    ∀ effect ∈ ofRun node machine, effect.Routine := by
  intro effect member
  simp only [ofRun, List.mem_cons, List.mem_map] at member
  rcases member with rfl | ⟨event, -, rfl⟩
  · exact routine_detail (.inl rfl) _ _
  · exact routine_event event

theorem routine_seed (seed : String × Float) : (ofSeed seed).Routine :=
  routine_detail (.inl rfl) _ _

end Effect

def Outcome.Routine (outcome : Outcome) : Prop :=
  ∀ effect ∈ outcome.effects, effect.Routine

structure Outcome.Fine (outcome : Outcome) : Prop where
  succeeds : outcome.failure = none
  routine : outcome.Routine

/-- Why the program at `path` cannot be had, and how that is said. -/
inductive Trouble (path : String) : Except FileError String → String → Prop where
  | unread (error : FileError) :
    Trouble path (.error error) ("Failed to read program '" ++ path ++ "': " ++ error.message)
  | unparsed {text : String} {fault : Fault} (fails : parse text = .error fault) :
    Trouble path (.ok text) (path ++ ": " ++ fault.display)

namespace Outcome

variable {path message : String} {source : Except FileError String}
variable {proceed : List Effect → Node → Option Outcome}

theorem of_program_trouble (trouble : Trouble path source message) :
    ∃ outcome, ofProgram path source proceed = some outcome ∧ outcome.failure = some message ∧
      outcome.Routine ∧
      ∀ effect ∈ outcome.effects, effect.output? .accepting = none := by
  cases trouble with
  | unread error => exact ⟨_, rfl, rfl, by simp [Routine], by simp⟩
  | @unparsed text fault fails =>
    refine ⟨⟨Effect.ofParsing text (.ofString text), some (path ++ ": " ++ fault.display)⟩, ?_, rfl,
      Effect.routine_parsing, Effect.unwritten_parsing⟩
    unfold parse at fails
    simp only [ofProgram, fails]

theorem tree_of_fine (fine : ∀ message, ¬Trouble path source message) :
    ∃ text tree, source = .ok text ∧ parse text = .ok tree := by
  cases source with
  | error error => exact absurd (.unread error) (fine _)
  | ok text =>
    cases parsed : parse text with
    | error fault => exact absurd (.unparsed parsed) (fine _)
    | ok tree => exact ⟨text, tree, rfl, parsed⟩

theorem of_program_eq {text : String} {tree : Node} (parsed : parse text = .ok tree) :
    ofProgram path (.ok text) proceed = proceed (Effect.ofParsing text (.ofString text)) tree := by
  unfold parse at parsed
  simp only [ofProgram, parsed]

theorem of_run_ends {text : String} {tree : Node} {seeds : List (String × Float)} {last : Machine}
    (parsed : parse text = .ok tree) (ends : Machine.Ends tree ⟨Store.empty.setAll seeds, []⟩ last)
    (dump : Bool) :
    ∃ enough, ∀ budget, enough ≤ budget →
      ∃ outcome, ofRun budget path (.ok text) seeds dump = some outcome := by
  obtain ⟨enough, ended⟩ := ends
  refine ⟨enough, fun budget larger => ?_⟩
  rw [ofRun, of_program_eq parsed, Machine.run_mono larger ended]
  exact ⟨_, rfl⟩

theorem of_run_fine {seeds : List (String × Float)} {dump : Bool} {budget : Nat} {outcome : Outcome}
    (fine : ∀ message, ¬Trouble path source message)
    (ended : ofRun budget path source seeds dump = some outcome) : outcome.Fine := by
  obtain ⟨text, tree, rfl, parsed⟩ := tree_of_fine fine
  rw [ofRun, of_program_eq parsed] at ended
  obtain ⟨machine, -, finished⟩ := Option.bind_eq_some_iff.mp ended
  cases finished
  refine ⟨rfl, ?_⟩
  intro effect member
  simp only [List.mem_append, List.mem_map, List.mem_singleton] at member
  rcases member with ((((parsing | ⟨seed, -, rfl⟩) | rfl) | running) | rfl) | shown
  · exact Effect.routine_parsing effect parsing
  · exact Effect.routine_seed seed
  · exact Effect.routine_info rfl _
  · exact Effect.routine_run tree machine effect running
  · exact Effect.routine_detail (.inl rfl) _ _
  · split at shown
    · obtain ⟨pair, -, rfl⟩ := List.mem_map.mp shown
      exact Effect.routine_line _
    · cases shown

theorem of_ast_fine (fine : ∀ message, ¬Trouble path source message) (compact : Bool) :
    ∃ outcome, ofAst path source compact = some outcome ∧ outcome.Fine := by
  obtain ⟨text, tree, rfl, parsed⟩ := tree_of_fine fine
  refine ⟨_, by rw [ofAst, of_program_eq parsed], rfl, ?_⟩
  intro effect member
  rcases List.mem_append.mp member with parsing | last
  · exact Effect.routine_parsing effect parsing
  · rw [List.mem_singleton.mp last]
    exact Effect.routine_line _

end Outcome

namespace Demo

theorem tree_of_is_ok {source : String} (accepted : (parse source).isOk = true) :
    ∃ tree, parse source = .ok tree := by
  cases parsed : parse source with
  | ok tree => exact ⟨tree, rfl⟩
  | error fault =>
    rw [parsed] at accepted
    cases accepted

theorem factorial_parses : ∃ tree, parse factorial = .ok tree :=
  tree_of_is_ok (by decide +kernel)

theorem loop_parses : ∃ tree, parse loop = .ok tree :=
  tree_of_is_ok (by decide +kernel)

theorem part_fine {budget : Nat} {source : String} {seed : String × Float} {title : List Effect}
    {outcome : Outcome} (parses : ∃ tree, parse source = .ok tree)
    (plain : ∀ effect ∈ title, effect.Routine)
    (ended : part budget source seed title = some outcome) : outcome.Fine := by
  obtain ⟨tree, parsed⟩ := parses
  unfold parse at parsed
  simp only [part, parsed] at ended
  obtain ⟨machine, -, finished⟩ := Option.bind_eq_some_iff.mp ended
  cases finished
  refine ⟨rfl, ?_⟩
  intro effect member
  simp only [List.cons_append, List.mem_cons, List.mem_append] at member
  rcases member with rfl | (titled | parsing) | running
  · exact Effect.routine_seed seed
  · exact plain effect titled
  · exact Effect.routine_parsing effect parsing
  · exact Effect.routine_run tree machine effect running

theorem part_mono {budget larger : Nat} {source : String} {seed : String × Float}
    {title : List Effect} {outcome : Outcome} (enough : budget ≤ larger)
    (ended : part budget source seed title = some outcome) :
    part larger source seed title = some outcome := by
  cases parsed : (Parsing.ofString source).outcome with
  | error fault =>
    simp only [part, parsed] at ended ⊢
    exact ended
  | ok tree =>
    simp only [part, parsed] at ended ⊢
    obtain ⟨machine, runs, finished⟩ := Option.bind_eq_some_iff.mp ended
    rw [Machine.run_mono enough runs]
    exact finished

end Demo

namespace Outcome

theorem Fine.and_then {first second : Outcome} (firstFine : first.Fine) (secondFine : second.Fine) :
    (first.andThen second).Fine := by
  simp only [andThen, firstFine.succeeds]
  refine ⟨secondFine.succeeds, ?_⟩
  intro effect member
  rcases List.mem_append.mp member with early | late
  · exact firstFine.routine effect early
  · exact secondFine.routine effect late

theorem of_demo_eq_some {budget : Nat} {outcome : Outcome} (ended : ofDemo budget = some outcome) :
    ∃ factorial loop,
      Demo.part budget Demo.factorial ("fact", 5)
        [.line ("Factorial of " ++ printNumber 5 ++ ":")] = some factorial ∧
      Demo.part budget Demo.loop ("len", 20) [] = some loop ∧
      outcome = andThen
        ⟨[.ofLog .info "minilang::commands::demo" "Running bundled demo programs"], none⟩
        (andThen factorial (andThen ⟨[.line "", .line "Loop example:"], none⟩ loop)) := by
  unfold ofDemo at ended
  simp only [Option.bind_eq_bind, Option.bind_eq_some_iff, Option.pure_def,
    Option.some.injEq] at ended
  obtain ⟨factorial, first, loop, second, rfl⟩ := ended
  exact ⟨factorial, loop, first, second, rfl⟩

theorem of_demo_fine {budget : Nat} {outcome : Outcome} (ended : ofDemo budget = some outcome) :
    outcome.Fine := by
  obtain ⟨factorial, loop, first, second, rfl⟩ := of_demo_eq_some ended
  have started :
      Fine ⟨[.ofLog .info "minilang::commands::demo" "Running bundled demo programs"], none⟩ :=
    ⟨rfl, List.forall_mem_singleton.mpr (Effect.routine_info rfl _)⟩
  have titled : ∀ effect ∈ [Effect.line ("Factorial of " ++ printNumber 5 ++ ":")],
      effect.Routine :=
    List.forall_mem_singleton.mpr (Effect.routine_line _)
  have between : Fine ⟨[.line "", .line "Loop example:"], none⟩ := by
    refine ⟨rfl, List.forall_mem_cons.mpr ⟨Effect.routine_line _, ?_⟩⟩
    exact List.forall_mem_singleton.mpr (Effect.routine_line _)
  apply started.and_then
  apply (Demo.part_fine Demo.factorial_parses titled first).and_then
  apply between.and_then
  exact Demo.part_fine Demo.loop_parses (by simp) second

theorem of_demo_mono {budget larger : Nat} {outcome : Outcome} (enough : budget ≤ larger)
    (ended : ofDemo budget = some outcome) : ofDemo larger = some outcome := by
  obtain ⟨factorial, loop, first, second, rfl⟩ := of_demo_eq_some ended
  rw [ofDemo, Demo.part_mono enough first, Demo.part_mono enough second]
  simp only [Option.bind_eq_bind, Option.bind_some, Option.pure_def]

theorem of_demo_ends : ∃ enough outcome, ofDemo enough = some outcome := by
  have ends : (ofDemo 400).isSome = true := by decide +kernel
  exact ⟨400, Option.isSome_iff_exists.mp ends⟩

end Outcome

namespace Report

/-- The report of a failure: one record tells it, after all others, and nothing is written. -/
structure Fails (report : Report) (message : String) : Prop where
  told : ∃ before, report.records .accepting = before ++ [⟨.error, "minilang", message⟩] ∧
    ∀ record ∈ before, record.level ≠ .error
  written : report.output .accepting = ""
  code : report.exitCode = 1

structure Succeeds (report : Report) : Prop where
  mild : ∀ record ∈ report.records .accepting, record.level ≠ .error ∧ record.level ≠ .warn
  code : report.exitCode = 0

variable {logging : Logging} {outcome : Outcome}

/-- What happens on the way is recorded first, then the failure. -/
theorem records_of_outcome (logging : Logging) (outcome : Outcome) :
    (ofOutcome logging outcome).records .accepting =
      (logging.ready :: outcome.effects).filterMap (·.record? .accepting) ++
        outcome.failure.toList.map fun message => ⟨.error, "minilang", message⟩ := by
  cases failure : outcome.failure with
  | none => simp [records, ofOutcome, Outcome.all, failure]
  | some message =>
    simp only [records, ofOutcome, Outcome.all, failure, ← List.cons_append, List.filterMap_append]
    rfl

theorem routine_records (routine : outcome.Routine) :
    ∀ record ∈ (logging.ready :: outcome.effects).filterMap (·.record? .accepting),
      record.Routine := by
  intro record member
  obtain ⟨effect, listed, made⟩ := List.mem_filterMap.mp member
  rcases List.mem_cons.mp listed with rfl | later
  · exact Effect.routine_detail (.inl rfl) _ _ record made
  · exact routine effect later record made

theorem fails_of_outcome {message : String} (failed : outcome.failure = some message)
    (routine : outcome.Routine)
    (unwritten : ∀ effect ∈ outcome.effects, effect.output? .accepting = none) :
    (ofOutcome logging outcome).Fails message := by
  constructor
  · have recorded := records_of_outcome logging outcome
    rw [failed] at recorded
    exact ⟨_, recorded, fun record member => (routine_records routine record member).mild.1⟩
  · have nothing : (ofOutcome logging outcome).effects.filterMap (·.output? .accepting) = [] := by
      rw [List.filterMap_eq_nil_iff]
      intro effect member
      simp only [ofOutcome, Outcome.all, failed, List.mem_cons, List.mem_append, List.not_mem_nil,
        or_false] at member
      rcases member with rfl | early | rfl
      · rfl
      · exact unwritten effect early
      · rfl
    rw [output, nothing]
    rfl
  · simp [ofOutcome, Outcome.exitCode, failed]

theorem succeeds_of_outcome (fine : outcome.Fine) : (ofOutcome logging outcome).Succeeds := by
  constructor
  · intro record member
    rw [records_of_outcome, fine.succeeds, Option.toList_none, List.map_nil,
      List.append_nil] at member
    exact (routine_records fine.routine record member).mild
  · simp [ofOutcome, Outcome.exitCode, fine.succeeds]

theorem detail_of_outcome (routine : outcome.Routine) {record : LogRecord}
    (member : record ∈ (ofOutcome logging outcome).records .accepting)
    (inside : record.fromLanguage = true) :
    record.level = .debug ∨ record.level = .trace := by
  rw [records_of_outcome, List.mem_append] at member
  rcases member with before | last
  · exact (routine_records routine record before).detail inside
  · -- the record of a failure comes from outside
    obtain ⟨message, -, rfl⟩ := List.mem_map.mp last
    have outside :
        "minilang_core::language::".toList.isPrefixOf "minilang".toList = false := by decide
    cases inside.symm.trans outside

end Report

def Disk.content {World : Type} (disk : Disk (StateM World)) (world : World) (path : String) :
    Except FileError String :=
  ((disk.readText path).run world).1

namespace Command

def path? : Command → Option String
  | .run path _ _ => some path
  | .ast path _ => some path
  | .demo => none

def Clear (content : String → Except FileError String) (command : Command) : Prop :=
  ∀ path message, command.path? = some path → ¬Trouble path (content path) message

/-- The program of a run ends from the variables that it starts with. -/
def Halts (content : String → Except FileError String) (seeded : Store)
    (command : Command) : Prop :=
  ∀ path seeds dump text tree, command = .run path seeds dump → content path = .ok text →
    parse text = .ok tree → ∃ last,
      Machine.Ends tree ⟨Store.empty.setAll (seeded.toList ++ seeds), []⟩ last

end Command

namespace Invocation

variable {World : Type} {disk : Disk (StateM World)} {stamp : String} {words : List String}
    {request : Request}
variable {settings : Settings} {logging : Logging} {world started : World}

theorem report_run (accepted : CommandLine.read words = .ok request)
    (ready : (start disk stamp request).run.run world = (.ok (settings, logging), started))
    (budget : Nat) :
    ((report disk stamp budget words).run world).1 =
      ((perform disk budget settings.store request.command).run started).1.map
        (.ofOutcome logging) := by
  unfold report
  rw [accepted]
  simp only [StateT.run_bind, ready]
  rfl

variable {seeded : Store} {command : Command} {path message : String} {budget : Nat}
    {outcome : Outcome}

theorem perform_run (budget : Nat) (seeded : Store) (path : String) (seeds : List (String × Float))
    (dump : Bool) :
    ((perform disk budget seeded (.run path seeds dump)).run started).1 =
      Outcome.ofRun budget path (disk.content started path) (seeded.toList ++ seeds) dump := rfl

theorem perform_ast (budget : Nat) (seeded : Store) (path : String) (compact : Bool) :
    ((perform disk budget seeded (.ast path compact)).run started).1 =
      Outcome.ofAst path (disk.content started path) compact := rfl

theorem perform_trouble (needed : command.path? = some path)
    (trouble : Trouble path (disk.content started path) message) (budget : Nat) (seeded : Store) :
    ∃ outcome, ((perform disk budget seeded command).run started).1 = some outcome ∧
      outcome.failure = some message ∧ outcome.Routine ∧
      ∀ effect ∈ outcome.effects, effect.output? .accepting = none := by
  cases command with
  | run named seeds dump =>
    cases needed
    rw [perform_run, Outcome.ofRun]
    exact Outcome.of_program_trouble trouble
  | ast named compact =>
    cases needed
    rw [perform_ast, Outcome.ofAst]
    exact Outcome.of_program_trouble trouble
  | demo => cases needed

theorem perform_fine (fine : command.Clear (disk.content started))
    (ended : ((perform disk budget seeded command).run started).1 = some outcome) :
    outcome.Fine := by
  cases command with
  | run path seeds dump => exact Outcome.of_run_fine (fun message => fine path message rfl) ended
  | ast path compact =>
    obtain ⟨other, answered, otherFine⟩ :=
      Outcome.of_ast_fine (fun message => fine path message rfl) compact
    cases answered.symm.trans ended
    exact otherFine
  | demo => exact Outcome.of_demo_fine ended

theorem perform_ends (fine : command.Clear (disk.content started))
    (halts : command.Halts (disk.content started) seeded) :
    ∃ enough, ∀ budget, enough ≤ budget →
      ∃ outcome, ((perform disk budget seeded command).run started).1 = some outcome := by
  cases command with
  | run path seeds dump =>
    obtain ⟨text, tree, read, parsed⟩ := Outcome.tree_of_fine fun message => fine path message rfl
    obtain ⟨last, ends⟩ := halts path seeds dump text tree rfl read parsed
    simp only [perform_run, read]
    exact Outcome.of_run_ends parsed ends dump
  | ast path compact =>
    obtain ⟨outcome, answered, -⟩ :=
      Outcome.of_ast_fine (fun message => fine path message rfl) compact
    exact ⟨0, fun budget _ => ⟨outcome, answered⟩⟩
  | demo =>
    obtain ⟨enough, outcome, ended⟩ := Outcome.of_demo_ends
    exact ⟨enough, fun budget larger => ⟨outcome, Outcome.of_demo_mono larger ended⟩⟩

theorem perform_routine
    (ended : ((perform disk budget seeded command).run started).1 = some outcome) :
    outcome.Routine := by
  by_cases fine : command.Clear (disk.content started)
  · exact (perform_fine fine ended).routine
  · unfold Command.Clear at fine
    push Not at fine
    obtain ⟨path, message, needed, trouble⟩ := fine
    obtain ⟨other, answered, -, routine, -⟩ := perform_trouble needed trouble budget seeded
    cases answered.symm.trans ended
    exact routine

/-- Every accepted command that gets as far as to log either fails, and its report tells one
failure, the last thing of all; or it succeeds, if its program ends, and its report tells none. -/
theorem failure_reported_once (accepted : CommandLine.read words = .ok request)
    (ready : (start disk stamp request).run.run world = (.ok (settings, logging), started)) :
    (∀ path message, request.command.path? = some path →
      Trouble path (disk.content started path) message →
      ∀ budget, ∃ report, ((Invocation.report disk stamp budget words).run world).1 = some report ∧
        report.Fails message) ∧
    (request.command.Clear (disk.content started) →
      (∀ budget report, ((Invocation.report disk stamp budget words).run world).1 = some report →
        report.Succeeds) ∧
      (request.command.Halts (disk.content started) settings.store →
        ∃ enough, ∀ budget, enough ≤ budget →
          ∃ report, ((Invocation.report disk stamp budget words).run world).1 = some report)) ∧
    ∀ budget report, ((Invocation.report disk stamp budget words).run world).1 = some report →
      ∀ record ∈ report.records .accepting, record.fromLanguage = true →
        record.level = .debug ∨ record.level = .trace := by
  refine ⟨?_, ?_, ?_⟩
  · intro path message needed trouble budget
    obtain ⟨outcome, answered, failed, routine, unwritten⟩ :=
      perform_trouble needed trouble budget settings.store
    refine ⟨.ofOutcome logging outcome, ?_, Report.fails_of_outcome failed routine unwritten⟩
    rw [report_run accepted ready, answered]
    rfl
  · intro fine
    constructor
    · intro budget report answered
      rw [report_run accepted ready, Option.map_eq_some_iff] at answered
      obtain ⟨outcome, ended, rfl⟩ := answered
      exact Report.succeeds_of_outcome (perform_fine fine ended)
    · intro halts
      obtain ⟨enough, ends⟩ := perform_ends fine halts
      refine ⟨enough, fun budget larger => ?_⟩
      obtain ⟨outcome, ended⟩ := ends budget larger
      rw [report_run accepted ready, ended]
      exact ⟨_, rfl⟩
  · intro budget report answered record member inside
    rw [report_run accepted ready, Option.map_eq_some_iff] at answered
    obtain ⟨outcome, ended, rfl⟩ := answered
    exact Report.detail_of_outcome (perform_routine ended) member inside

/-- A folder with one program, whose only statement is not closed. -/
def unclosed : FileTree :=
  ⟨[(["cut.wl"], "print a".toUTF8)], []⟩

theorem failure_reported_once_unclosed :
    CommandLine.read ["run", "cut.wl", "-v"] = .ok ⟨none, true, .run "cut.wl" [] false⟩ ∧
      (start FileTree.disk "" ⟨none, true, .run "cut.wl" [] false⟩).run.run unclosed =
        (.ok ({}, ⟨.upTo .debug, none⟩), unclosed) ∧
      ∃ report, ((Invocation.report FileTree.disk "" 0 ["run", "cut.wl", "-v"]).run unclosed).1 =
        some report ∧
        report.Fails
          ("cut.wl: Parser error: expected \"operator\" (;), but found \"end of file\" " ++
          "(line 1, column 8)") := by
  have accepted :
      CommandLine.read ["run", "cut.wl", "-v"] = .ok ⟨none, true, .run "cut.wl" [] false⟩ := rfl
  have ready : (start FileTree.disk "" ⟨none, true, .run "cut.wl" [] false⟩).run.run unclosed =
      (.ok ({}, ⟨.upTo .debug, none⟩), unclosed) := rfl
  have content : unclosed.readText "cut.wl" = .ok "print a" := by decide +kernel
  have fails :
      parse "print a" = .error ⟨.missingOperator ";" ⟨.endOfFile, none, 1, 8⟩, 1, 8⟩ := by cbv
  refine ⟨accepted, ready, (failure_reported_once accepted ready).1 "cut.wl" _ rfl ?_ 0⟩
  rw [show FileTree.disk.content unclosed "cut.wl" = .ok "print a" from content]
  exact .unparsed fails

end Invocation

end WhileLang
