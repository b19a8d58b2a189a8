/-
  What the exit code of a run tells.

  A run that is not interactive goes through four stages: it reads the grammar, compiles it, reads
  the input and checks it. The first stage that fails has its own exit code, and behind all of them
  the code tells whether the input, with a line feed behind it, is in the language of the grammar
  (`exitCode_run`). No check comes out as a defect; a run does so exactly if it gets as far as the
  check and the worker fails (`exitCode_run_eq_two_iff`).
-/
import Earley.Proofs.Command.Input
import Earley.Proofs.Ebnf.Compile
import Earley.Proofs.Tree.Rebuild

namespace Earley

/-! ### Verdicts -/

section Verdict

variable {g : Grammar} {input : Array Char}

/-- An input that the start symbol derives is accepted and has a tree. -/
theorem Verdict.exitCode_ofInput_of_yields (hg : g.WellFormed)
    (h : g.Yields [.nonterm g.start] input.toList) :
    (Verdict.ofChart (.ofInput g input)).exitCode = 0 := by
  rw [Grammar.yields_iff_generates] at h
  obtain ⟨rule, hrule⟩ :=
    Option.ne_none_iff_exists'.1 ((Chart.acceptingRule?_ne_none_iff hg input).2 h)
  obtain ⟨tree, htree, -⟩ := Chart.exists_tree_of_generates hg input h
  rw [ofChart, hrule, htree]
  rfl

theorem Verdict.exitCode_ofInput_of_not_yields (hg : g.WellFormed)
    (h : ¬g.Yields [.nonterm g.start] input.toList) :
    (Verdict.ofChart (.ofInput g input)).exitCode = 1 := by
  rw [Grammar.yields_iff_generates, ← Chart.acceptingRule?_ne_none_iff hg input, not_not] at h
  rw [ofChart, h]
  rfl

end Verdict

theorem Grammar.wellFormed_of_compile {text : List Char} {start : String} {g : Grammar}
    (h : compile text start = .ok g) : g.WellFormed := by
  obtain ⟨ds, -, merged, -, hcompile⟩ := compile_eq_ok_iff.1 h
  exact wellFormed_of_build (Declaration.compile_eq_ok_iff.1 hcompile).2

namespace Command

variable {o : Options} {w : World} {text input : String} {g : Grammar} {e : CompileError}

/-! ### The stages of a run -/

theorem run_of_unread {message : String} (h : w.readText o.grammar = .error message) :
    run o w = .failure exitRead message := by
  rw [run, h]

theorem run_of_compile_error (htext : w.Holds o.grammar text)
    (h : Grammar.compile text.toList o.start = .error e) :
    run o w = (Report.failure exitGrammar (o.grammar ++ ": " ++ e.display)).after
      ((Record.ofCompile text.toList o.start).map .record) := by
  rw [← World.readText_eq_ok_iff] at htext
  rw [run, htext]
  dsimp only
  rw [h]

theorem run_of_compile (htext : w.Holds o.grammar text)
    (h : Grammar.compile text.toList o.start = .ok g) :
    run o w = (runInput o w g).after ((Record.ofCompile text.toList o.start).map .record ++
      [note .debug ("loaded " ++ toString g.rules.size ++ " rules from " ++ o.grammar)]) := by
  rw [← World.readText_eq_ok_iff] at htext
  rw [run, htext]
  dsimp only
  rw [h]

theorem runInput_of_unread {message : String} (hinteractive : o.interactive = false)
    (h : w.readInput o = .error message) : runInput o w g = .failure exitRead message := by
  rw [runInput, if_neg (by simp [hinteractive]), h]

theorem runInput_of_supplies (hinteractive : o.interactive = false)
    (h : w.Supplies o input) : runInput o w g = check o w 0 g input := by
  rw [← World.readInput_eq_ok_iff] at h
  rw [runInput, if_neg (by simp [hinteractive]), h]

theorem check_of_finishes {turn : Nat} (h : w.worker turn = .finishes) :
    check o w turn g input = work o w g input := by
  rw [check, h]

/-! ### The exit codes of the stages -/

theorem exitCode_run_of_unread (h : ¬∃ text, w.Holds o.grammar text) :
    (run o w).exitCode = exitRead := by
  simp only [← World.readText_eq_ok_iff] at h
  cases hread : w.readText o.grammar with
  | error message => rw [run_of_unread hread, Report.failure]
  | ok text => exact absurd ⟨text, hread⟩ h

theorem exitCode_run_of_compile_error (htext : w.Holds o.grammar text)
    (h : Grammar.compile text.toList o.start = .error e) : (run o w).exitCode = exitGrammar := by
  rw [run_of_compile_error htext h, Report.after, Report.failure]

theorem exitCode_run_of_compile (htext : w.Holds o.grammar text)
    (h : Grammar.compile text.toList o.start = .ok g) :
    (run o w).exitCode = (runInput o w g).exitCode := by
  rw [run_of_compile htext h, Report.after]

theorem exitCode_runInput_of_unread (hinteractive : o.interactive = false)
    (h : ¬∃ input, w.Supplies o input) : (runInput o w g).exitCode = exitRead := by
  simp only [← World.readInput_eq_ok_iff] at h
  cases hread : w.readInput o with
  | error message => rw [runInput_of_unread hinteractive hread, Report.failure]
  | ok input => exact absurd ⟨input, hread⟩ h

theorem exitCode_work_of_yields (hg : g.WellFormed)
    (h : g.Yields [.nonterm g.start] (input.toList ++ ['\n'])) :
    (work o w g input).exitCode = 0 :=
  Verdict.exitCode_ofInput_of_yields hg (by simpa using h)

theorem exitCode_work_of_not_yields (hg : g.WellFormed)
    (h : ¬g.Yields [.nonterm g.start] (input.toList ++ ['\n'])) :
    (work o w g input).exitCode = 1 :=
  Verdict.exitCode_ofInput_of_not_yields hg (by simpa using h)

/-- What a worker comes to is not a defect, whatever it checks. -/
theorem exitCode_work_ne_two (hg : g.WellFormed) : (work o w g input).exitCode ≠ 2 := by
  by_cases h : g.Yields [.nonterm g.start] (input.toList ++ ['\n'])
  · rw [exitCode_work_of_yields hg h]
    decide
  · rw [exitCode_work_of_not_yields hg h]
    decide

/-- A check is a defect if its worker fails, and only then. -/
theorem exitCode_check_eq_two_iff (hg : g.WellFormed) {turn : Nat} :
    (check o w turn g input).exitCode = 2 ↔ w.worker turn ≠ .finishes := by
  cases hworker : w.worker turn with
  | finishes =>
    rw [check_of_finishes hworker]
    exact iff_of_false (exitCode_work_ne_two hg) (by simp)
  | panics told =>
    rw [check, hworker]
    exact iff_of_true rfl (by simp)
  | doesNotStart message =>
    rw [check, hworker]
    exact iff_of_true rfl (by simp)

/-- A run is a defect if it gets as far as the check and the worker fails, and only then. -/
theorem exitCode_run_eq_two_iff (hinteractive : o.interactive = false) :
    (run o w).exitCode = 2 ↔ w.worker 0 ≠ .finishes ∧ ∃ text g input, w.Holds o.grammar text ∧
      Grammar.compile text.toList o.start = .ok g ∧ w.Supplies o input := by
  by_cases hgrammar : ∃ text, w.Holds o.grammar text
  · obtain ⟨text, htext⟩ := hgrammar
    cases hcompile : Grammar.compile text.toList o.start with
    | error e =>
      rw [exitCode_run_of_compile_error htext hcompile]
      refine iff_of_false (by decide) ?_
      rintro ⟨-, text', g, input, htext', hcompile', -⟩
      obtain rfl := World.Holds.unique htext htext'
      cases hcompile.symm.trans hcompile'
    | ok g =>
      rw [exitCode_run_of_compile htext hcompile]
      by_cases hinput : ∃ input, w.Supplies o input
      · obtain ⟨input, hinput⟩ := hinput
        rw [runInput_of_supplies hinteractive hinput,
          exitCode_check_eq_two_iff (Grammar.wellFormed_of_compile hcompile)]
        exact (and_iff_left ⟨text, g, input, htext, hcompile, hinput⟩).symm
      · rw [exitCode_runInput_of_unread hinteractive hinput]
        refine iff_of_false (by decide) ?_
        rintro ⟨-, -, -, input, -, -, hinput'⟩
        exact hinput ⟨input, hinput'⟩
  · rw [exitCode_run_of_unread hgrammar]
    refine iff_of_false (by decide) ?_
    rintro ⟨-, text, -, -, htext, -⟩
    exact hgrammar ⟨text, htext⟩

/-! ### The exit code of a run -/

/-- **The exit code tells the truth.** A run that is not interactive and whose worker does not fail
ends with four if the grammar cannot be read, otherwise with three if it does not compile for the
start symbol, otherwise with four if there is no input to be read, otherwise with zero if the start
symbol derives the input with a line feed behind it, and otherwise with one. It never ends with
two. -/
theorem exitCode_run (o : Options) (w : World) (hinteractive : o.interactive = false)
    (hworker : w.worker 0 = .finishes) :
    ((¬∃ text, w.Holds o.grammar text) → (run o w).exitCode = 4) ∧
    (∀ text, w.Holds o.grammar text →
      (∀ e, Grammar.compile text.toList o.start = .error e → (run o w).exitCode = 3) ∧
      ∀ g, Grammar.compile text.toList o.start = .ok g →
        ((¬∃ input, w.Supplies o input) → (run o w).exitCode = 4) ∧
        ∀ input, w.Supplies o input →
          (g.Yields [.nonterm g.start] (input.toList ++ ['\n']) → (run o w).exitCode = 0) ∧
          (¬g.Yields [.nonterm g.start] (input.toList ++ ['\n']) → (run o w).exitCode = 1)) ∧
    (run o w).exitCode ≠ 2 := by
  refine ⟨exitCode_run_of_unread, fun text htext => ⟨fun e he => ?_, fun g hcompile => ?_⟩,
    fun h => ((exitCode_run_eq_two_iff hinteractive).1 h).1 hworker⟩
  · exact exitCode_run_of_compile_error htext he
  · have hg := Grammar.wellFormed_of_compile hcompile
    rw [exitCode_run_of_compile htext hcompile]
    refine ⟨exitCode_runInput_of_unread hinteractive, fun input hinput => ?_⟩
    rw [runInput_of_supplies hinteractive hinput, check_of_finishes hworker]
    exact ⟨exitCode_work_of_yields hg, exitCode_work_of_not_yields hg⟩

/-! ### A run on three files -/

/-- A grammar text for the line that has one letter. -/
def lineText : String := "s = 'a' '\\n' ;"

/-- The tokens of `lineText`. -/
def lineLexemes : List Lexeme :=
  [⟨.identifier "s", ⟨0, 1, 1⟩⟩, ⟨.define, ⟨2, 1, 3⟩⟩, ⟨.literal "a", ⟨4, 1, 5⟩⟩,
    ⟨.literal "\n", ⟨8, 1, 9⟩⟩, ⟨.semicolon, ⟨13, 1, 14⟩⟩]

/-- The declaration in `lineText`. -/
def lineDeclaration : Declaration where
  name := "s"
  location := ⟨0, 1, 1⟩
  body := [[.literal "a", .literal "\n"]]

/-- The steps for `lineText`. -/
def lineSteps : List Step :=
  [.nonterm true "s", .terminal true "\"a\"" (.literal ['a']),
    .terminal true "\"\\n\"" (.literal ['\n']), .rule true "s" ["\"a\"", "\"\\n\""]]

/-- Files with a grammar and an input, of which the standard input names the input; a third file
has no text. -/
def lineWorld : World where
  lookup
    | "g" => .file (.ok lineText.toUTF8)
    | "d/i" => .file (.ok "a".toUTF8)
    | "h" => .file (.ok ⟨#[255]⟩)
    | _ => .nothing .notFound
  stdin := " d/i\n".toUTF8
  filters := .unset
  worker _ := .finishes

/-- Options for a check with a grammar and a start symbol. -/
def lineOptions (grammar start : String) : Options where
  grammar := grammar
  start := start
  input := none
  verbosity := .normal
  behavior := .validate
  interactive := false
  path := none

theorem ofChars_lineText : Declaration.ofChars lineText.toList = .ok [lineDeclaration] := by
  have htokens : tokenize lineText.toList = .ok lineLexemes := by decide +kernel
  rw [Declaration.ofChars, htokens]
  rfl

theorem allSteps_lineDeclaration : Declaration.allSteps [lineDeclaration] = lineSteps := by
  decide +kernel

theorem run_lineSteps :
    (Builder.run lineSteps).error = none ∧
      (Builder.run lineSteps).symbols["s"]? = some (.nonterm 0) ∧
      (Builder.run lineSteps).nonterms = #["s"] ∧
      (Builder.run lineSteps).rules =
        #[⟨0, #[.terminal (.literal ['a']), .terminal (.literal ['\n'])]⟩] := by
  cbv

theorem exists_compile_lineText :
    ∃ g, Grammar.compile lineText.toList "s" = .ok g ∧
      g.Yields [.nonterm g.start] ['a', '\n'] := by
  obtain ⟨herror, hstart, hnonterms, hrules⟩ := run_lineSteps
  have hbuild : ∃ g, Grammar.build (Declaration.allSteps [lineDeclaration]) "s" = .ok g ∧
      g.start = 0 ∧
      g.rules = #[⟨0, #[.terminal (.literal ['a']), .terminal (.literal ['\n'])]⟩] := by
    rw [allSteps_lineDeclaration]
    refine ⟨⟨0, _, _, _, _, _⟩, Builder.finish_eq_ok_iff.2
      ⟨herror, hstart, ?_, rfl, rfl, rfl, rfl, rfl⟩, rfl, hrules⟩
    rw [hrules, hnonterms]
    decide +kernel
  obtain ⟨g, hg, hstart, hrules⟩ := hbuild
  have hcheck :
      Declaration.check [lineDeclaration] "s" (.endOf lineText.toList) = .ok () :=
    Declaration.check_eq_ok_iff.2 (by decide)
  refine ⟨g, Grammar.compile_eq_ok_iff.2 ⟨_, ofChars_lineText, _, rfl,
    Declaration.compile_eq_ok_iff.2 ⟨hcheck, hg⟩⟩, ?_⟩
  rw [Grammar.yields_iff_generates, hstart]
  exact Grammar.generates_nonterm_iff.2
    ⟨⟨0, #[.terminal (.literal ['a']), .terminal (.literal ['\n'])]⟩, by simp [hrules], rfl,
      .terminal (u := ['a']) rfl (.terminal (u := ['\n']) rfl .nil)⟩

theorem exists_compile_lineText_error :
    ∃ e, Grammar.compile lineText.toList "t" = .error e := by
  cases h : Grammar.compile lineText.toList "t" with
  | error e => exact ⟨e, rfl⟩
  | ok g =>
    obtain ⟨ds, hread, merged, hmerge, hcompile⟩ := Grammar.compile_eq_ok_iff.1 h
    cases ofChars_lineText.symm.trans hread
    cases hmerge
    obtain ⟨hcheck, -⟩ := Declaration.compile_eq_ok_iff.1 hcompile
    exact absurd (Declaration.check_eq_ok_iff.1 hcheck).2 (by decide)

theorem not_holds_lineWorld : ¬∃ text, lineWorld.Holds "h" text := by
  have hdecode : decodeText ⟨#[255]⟩ = .error .notUtf8 := by decide +kernel
  rintro ⟨text, hholds⟩
  have hbytes : (⟨#[255]⟩ : ByteArray) = text.toUTF8 := Except.ok.inj (Entry.file.inj hholds)
  rw [← decodeText_eq_ok_iff, hdecode] at hbytes
  cases hbytes

theorem supplies_lineWorld (grammar start : String) :
    lineWorld.Supplies (lineOptions grammar start) "a" := by
  have hstdin : lineWorld.stdin = " d/i\n".toUTF8 := rfl
  have htrim : IsTrimmed " d/i\n" "d/i" := isTrimmed_iff.2 (by decide +kernel)
  exact .named rfl rfl hstdin htrim (by decide) rfl rfl

theorem exitCode_run_lineWorld :
    (run (lineOptions "g" "s") lineWorld).exitCode = 0 ∧
      (run (lineOptions "g" "t") lineWorld).exitCode = 3 ∧
      (run (lineOptions "h" "s") lineWorld).exitCode = 4 := by
  obtain ⟨g, hg, hyields⟩ := exists_compile_lineText
  obtain ⟨e, he⟩ := exists_compile_lineText_error
  obtain ⟨-, hread, -⟩ := exitCode_run (lineOptions "g" "s") lineWorld rfl rfl
  obtain ⟨-, hread', -⟩ := exitCode_run (lineOptions "g" "t") lineWorld rfl rfl
  obtain ⟨hunread, -, -⟩ := exitCode_run (lineOptions "h" "s") lineWorld rfl rfl
  have hinput := ((hread lineText rfl).2 g hg).2 "a" (supplies_lineWorld "g" "s")
  exact ⟨hinput.1 hyields, (hread' lineText rfl).1 e he, hunread not_holds_lineWorld⟩

end Command

end Earley
