/-
  What a run prints, and that its outcome does not depend on how much is to be said.

  Up to the check of the input a run does not look at the verbosity and the behavior: it fails with
  one error, or goes on to check an input, and until then it has told of no error and drawn nothing
  (`run_tuned_cases`). A check is the same at every verbosity and for every behavior as far as the
  exit code and the errors are concerned (`work_spec`), and with a valid input there are none.

  Every verbosity lets errors through, so that the error stream lists all of them that the
  environment does not leave out (`lists_errors_ofPieces`). Two streams that list the same records
  are alike if the formatter counts what was printed before for the padding only (`Lists.alike`).
  If there is to be said as little as possible and the environment asks for no more, nothing but
  drawings is left for the output stream (`output_ofPieces_error`).
-/
import Earley.Proofs.Command.ExitCode

namespace Earley

theorem filterMap_cons_eq_append {α β : Type} (f : α → Option β) (a : α) (l : List α) :
    (a :: l).filterMap f = (f a).toList ++ l.filterMap f := by
  rw [List.filterMap_cons]
  cases f a <;> rfl

namespace Command

/-! ### Errors and drawings among the pieces -/

/-- The error that a piece tells of. -/
def Piece.error? : Piece → Option Record
  | .record r => if r.level = .error then some r else none
  | .drawing _ => none

/-- The text that a piece draws. -/
def Piece.drawing? : Piece → Option String
  | .record _ => none
  | .drawing text => some text

/-- The errors of a report, in order. -/
def Report.errors (r : Report) : List Record := r.pieces.filterMap Piece.error?

/-- The drawings of a report, in order. -/
def Report.drawings (r : Report) : List String := r.pieces.filterMap Piece.drawing?

/-- Tells that pieces are records without errors. -/
def Quiet (pieces : List Piece) : Prop :=
  pieces.filterMap Piece.error? = [] ∧ pieces.filterMap Piece.drawing? = []

theorem quiet_map_record {records : List Record} (h : ∀ r ∈ records, r.level ≠ .error) :
    Quiet (records.map .record) := by
  constructor
  · rw [List.filterMap_map, List.filterMap_eq_nil_iff]
    exact fun r hr => if_neg (h r hr)
  · rw [List.filterMap_map, List.filterMap_eq_nil_iff]
    exact fun r _ => rfl

theorem Quiet.append {pieces pieces' : List Piece} (h : Quiet pieces) (h' : Quiet pieces') :
    Quiet (pieces ++ pieces') := by
  constructor
  · rw [List.filterMap_append, h.1, h'.1, List.append_nil]
  · rw [List.filterMap_append, h.2, h'.2, List.append_nil]

theorem Report.errors_after {pieces : List Piece} (h : Quiet pieces) (r : Report) :
    (r.after pieces).errors = r.errors := by
  rw [errors, after, List.filterMap_append, h.1, List.nil_append, errors]

theorem Report.drawings_after {pieces : List Piece} (h : Quiet pieces) (r : Report) :
    (r.after pieces).drawings = r.drawings := by
  rw [drawings, after, List.filterMap_append, h.2, List.nil_append, drawings]

/-! ### Lines -/

/-- Tells that two texts differ in nothing but how many spaces there are at some places. -/
inductive Alike : String → String → Prop
  | nil : Alike "" ""
  | concat {text text' : String} (h : Alike text text') (front back : String) (n n' : Nat) :
      Alike (text ++ (front ++ spaces n ++ back)) (text' ++ (front ++ spaces n' ++ back))

/-- Tells that for the line of a record it does not matter what was printed before, but for the
number of spaces at one place. -/
def Formatter.PadsTopics (f : Formatter) : Prop :=
  ∃ front back : Record → String, ∀ state r, ∃ n, f.line state r = front r ++ spaces n ++ back r

theorem Formatter.padsTopics_aligned : Formatter.aligned.PadsTopics :=
  ⟨fun r => " " ++ pad 5 r.level.name ++ " " ++ r.topic.name, fun r => " > " ++ r.text ++ "\n",
    fun (width : Nat) r => ⟨max width r.topic.name.length - r.topic.name.length, by
      simp only [aligned, pad, String.append_assoc]⟩⟩

/-- Tells that a text lists records, each on the line that the formatter gives it in some state. -/
inductive Lists (f : Formatter) : List Record → String → Prop
  | nil : Lists f [] ""
  | concat {records : List Record} {text : String} (h : Lists f records text) (r : Record)
      (state : f.State) : Lists f (records ++ [r]) (text ++ f.line state r)

section Lists

variable {f : Formatter} {records : List Record} {text text' : String}

theorem Lists.eq_empty (h : Lists f [] text) : text = "" := by
  generalize hrecords : ([] : List Record) = records at h
  cases h with
  | nil => rfl
  | concat h r state => exact absurd hrecords.symm (List.append_ne_nil_of_right_ne_nil _ (by simp))

theorem Lists.exists_of_concat {r : Record} (h : Lists f (records ++ [r]) text) :
    ∃ before state, Lists f records before ∧ text = before ++ f.line state r := by
  generalize hrecords : records ++ [r] = all at h
  cases h with
  | nil => exact absurd hrecords (List.append_ne_nil_of_right_ne_nil _ (by simp))
  | concat h r' state =>
    obtain ⟨rfl, hr⟩ := List.append_inj' hrecords rfl
    obtain rfl := List.singleton_inj.1 hr
    exact ⟨_, state, h, rfl⟩

/-- Two lists of the same records are alike. -/
theorem Lists.alike (hf : f.PadsTopics) (h : Lists f records text) (h' : Lists f records text') :
    Alike text text' := by
  obtain ⟨front, back, hline⟩ := hf
  induction h generalizing text' with
  | nil =>
    rw [h'.eq_empty]
    exact .nil
  | concat h r state ih =>
    obtain ⟨before, state', hbefore, rfl⟩ := h'.exists_of_concat
    obtain ⟨n, hn⟩ := hline state r
    obtain ⟨n', hn'⟩ := hline state' r
    rw [hn, hn']
    exact (ih hbefore).concat (front r) (back r) n n'

end Lists

/-! ### What is let through -/

theorem admits_error (limit : Level) : limit.admits .error = true := by
  cases limit <;> rfl

theorem error_admits_iff {level : Level} : Level.error.admits level = true ↔ level = .error := by
  cases level <;> decide

/-- Whether an error is let through is not up to the verbosity. -/
theorem Filters.admits_of_error (filters : Filters) (limit : Level) {r : Record}
    (h : r.level = .error) : filters.admits limit r = filters.admits .error r := by
  rw [admits, admits, enables, enables, h]
  cases filters.directive? r.topic with
  | none => simp only [Option.getD_none, Directive.admits, admits_error]
  | some directive => rfl

theorem Filters.admits_unset (limit : Level) (r : Record) :
    Filters.unset.admits limit r = limit.admits r.level :=
  Bool.and_true _

/-! ### The two streams -/

namespace Printed

variable {f : Formatter} {p : Printed f} {records : List Record}

/-- The error stream gets one more line for an error that is let through, and nothing for any other
piece. -/
theorem lists_errors_add (h : Lists f records p.errors) (filters : Filters) (limit : Level)
    (piece : Piece) :
    Lists f (records ++ piece.error?.toList.filter (filters.admits .error))
      (p.add filters limit piece).errors := by
  cases piece with
  | drawing text => simpa [add, Piece.error?] using h
  | record r =>
    by_cases herror : r.level = .error
    · rw [Piece.error?, if_pos herror, Option.toList_some, add,
        filters.admits_of_error limit herror]
      by_cases hadmits : filters.admits .error r = true
      · rw [if_pos hadmits, List.filter_cons_of_pos hadmits, List.filter_nil]
        simp only [herror, if_true]
        exact h.concat r _
      · rw [if_neg hadmits, List.filter_cons_of_neg hadmits, List.filter_nil, List.append_nil]
        exact h
    · have hsame : (p.add filters limit (.record r)).errors = p.errors := by
        simp only [add, herror, if_false]
        split <;> rfl
      rw [hsame, Piece.error?, if_neg herror, Option.toList_none, List.filter_nil, List.append_nil]
      exact h

theorem lists_errors_foldl (h : Lists f records p.errors) (filters : Filters) (limit : Level)
    (pieces : List Piece) :
    Lists f (records ++ (pieces.filterMap Piece.error?).filter (filters.admits .error))
      (pieces.foldl (add filters limit) p).errors := by
  induction pieces generalizing p records with
  | nil => simpa using h
  | cons piece pieces ih =>
    have hrest := ih (lists_errors_add h filters limit piece)
    rw [List.append_assoc, ← List.filter_append] at hrest
    rw [List.foldl_cons, filterMap_cons_eq_append]
    exact hrest

/-- What goes to the error stream is a list of all errors that the environment does not leave out,
at every verbosity. -/
theorem lists_errors_ofPieces (f : Formatter) (filters : Filters) (limit : Level)
    (pieces : List Piece) :
    Lists f ((pieces.filterMap Piece.error?).filter (filters.admits .error))
      (ofPieces f filters limit pieces).errors := by
  have hlists : Lists f [] (Printed.mk (f := f) "" "" f.initial).errors := .nil
  have hall := lists_errors_foldl hlists filters limit pieces
  rwa [List.nil_append] at hall

theorem output_add_error (p : Printed f) (piece : Piece) :
    (p.add .unset .error piece).output = p.output ++ String.join piece.drawing?.toList := by
  cases piece with
  | drawing text => simp [add, Piece.drawing?]
  | record r =>
    have hoption : String.join (Piece.drawing? (.record r)).toList = "" := rfl
    rw [hoption, String.append_empty, add, Filters.admits_unset]
    split
    · rename_i hadmits
      simp only [error_admits_iff.1 hadmits, if_true]
    · rfl

/-- If only errors are let through, the output is what is drawn. -/
theorem output_foldl_error (p : Printed f) (pieces : List Piece) :
    (pieces.foldl (add .unset .error) p).output =
      p.output ++ String.join (pieces.filterMap Piece.drawing?) := by
  induction pieces generalizing p with
  | nil => exact String.append_empty.symm
  | cons piece pieces ih =>
    rw [List.foldl_cons, ih, output_add_error, filterMap_cons_eq_append, String.join_append,
      String.append_assoc]

theorem output_ofPieces_error (f : Formatter) (pieces : List Piece) :
    (ofPieces f .unset .error pieces).output = String.join (pieces.filterMap Piece.drawing?) := by
  rw [ofPieces, output_foldl_error, String.empty_append]

end Printed

end Command

namespace Record

/-! ### Records without errors -/

variable {start : String} {r : Record}

theorem level_ne_error_of_ofStep? {step : Step} (h : ofStep? step = some r) :
    r.level ≠ .error := by
  cases step with
  | nonterm quiet name =>
    obtain rfl := Option.some.inj h
    exact Level.noConfusion
  | terminal quiet name t => cases h
  | rule quiet head body =>
    obtain rfl := Option.some.inj h
    exact Level.noConfusion

theorem level_ne_error_of_mem_ofMerged {merged : List Declaration}
    (h : r ∈ ofMerged merged start) : r.level ≠ .error := by
  rw [ofMerged] at h
  rcases List.mem_append.1 h with h | h
  · obtain ⟨step, -, hstep⟩ := List.mem_filterMap.1 h
    exact level_ne_error_of_ofStep? hstep
  · split at h
    · cases h
    · obtain rfl := List.mem_singleton.1 h
      exact Level.noConfusion

theorem level_ne_error_of_mem_ofDeclarations {declarations : List Declaration}
    {endOfText : Location} (h : r ∈ ofDeclarations declarations start endOfText) :
    r.level ≠ .error := by
  rw [ofDeclarations] at h
  split at h
  · cases h
  · split at h
    · cases h
    · exact level_ne_error_of_mem_ofMerged h

/-- To compile a grammar text tells of no error: that is left to the run. -/
theorem level_ne_error_of_mem_ofCompile {text : List Char} (h : r ∈ ofCompile text start) :
    r.level ≠ .error := by
  rw [ofCompile] at h
  split at h
  · cases h
  · rcases List.mem_append.1 h with h | h
    · obtain ⟨d, -, rfl⟩ := List.mem_map.1 h
      exact Level.noConfusion
    · exact level_ne_error_of_mem_ofDeclarations h

theorem level_ne_error_of_mem_ofSets {c : Chart} (h : r ∈ ofSets c) : r.level ≠ .error := by
  obtain ⟨pos, -, h⟩ := List.mem_flatMap.1 h
  rcases List.mem_cons.1 h with rfl | h
  · exact Level.noConfusion
  · obtain ⟨item, -, hitem⟩ := List.mem_filterMap.1 h
    obtain ⟨line, -, rfl⟩ := Option.map_eq_some_iff.1 hitem
    exact Level.noConfusion

end Record

namespace Command

/-! ### The outcome of a check -/

/-- The errors that a check tells of, by its verdict. -/
def complaints : Verdict → List Record
  | .valid _ => []
  | .invalid e => [⟨.error, .command, "Invalid: " ++ e.message⟩]
  | .defect e => [⟨.error, .verdicts, e.message⟩, ⟨.error, .command, e.message⟩]

/-- What a check draws, by its verdict. -/
def drawn (behavior : Behavior) : Verdict → List String
  | .valid tree => if behavior = .tree then [tree.draw] else []
  | .invalid _ | .defect _ => []

theorem exists_valid_of_exitCode_eq_zero {verdict : Verdict} (h : verdict.exitCode = 0) :
    ∃ tree, verdict = .valid tree := by
  cases verdict with
  | valid tree => exact ⟨tree, rfl⟩
  | invalid e => cases h
  | defect e => cases h

theorem drawn_eq_nil (behavior : Behavior) {verdict : Verdict} (h : verdict.exitCode ≠ 0) :
    drawn behavior verdict = [] := by
  cases verdict with
  | valid tree => exact absurd rfl h
  | invalid e => rfl
  | defect e => rfl

/-- The last pieces of a check. -/
def closing (behavior : Behavior) (c : Chart) (verdict : Verdict) : List Piece :=
  (Record.ofVerdict c verdict).map .record ++ tell behavior verdict

theorem errors_closing (behavior : Behavior) (c : Chart) (verdict : Verdict) :
    (closing behavior c verdict).filterMap Piece.error? = complaints verdict := by
  cases verdict with
  | valid tree => cases behavior <;> rfl
  | invalid e => rfl
  | defect e => rfl

theorem drawings_closing (behavior : Behavior) (c : Chart) (verdict : Verdict) :
    (closing behavior c verdict).filterMap Piece.drawing? = drawn behavior verdict := by
  cases verdict with
  | valid tree => cases behavior <;> rfl
  | invalid e => rfl
  | defect e => rfl

variable {o : Options} {w : World} {g : Grammar} {input : String} {verdict : Verdict}

/-- Before its last pieces a check tells of no error and draws nothing, whether it lists the state
sets or not. -/
theorem exists_work_eq_after (o : Options) (w : World)
    (h : g.validate (input.toList ++ ['\n']) = verdict) :
    ∃ before c, Quiet before ∧
      work o w g input =
        (Report.mk verdict.exitCode (closing o.behavior c verdict)).after before := by
  let c := Chart.ofInput g (input.toList ++ ['\n']).toArray
  let sets := if listsSets o w then Record.ofSets c else []
  have hquiet : ∀ r ∈ sets ++ [Record.ofSize c], r.level ≠ .error := by
    intro r hr
    rcases List.mem_append.1 hr with hr | hr
    · simp only [sets] at hr
      split at hr
      · exact Record.level_ne_error_of_mem_ofSets hr
      · cases hr
    · obtain rfl := List.mem_singleton.1 hr
      exact Level.noConfusion
  have hrecords : Record.ofCheck (listsSets o w) c verdict =
      (sets ++ [Record.ofSize c]) ++ Record.ofVerdict c verdict :=
    (List.append_assoc sets [Record.ofSize c] _).symm
  have hwork : work o w g input = ⟨verdict.exitCode,
      (Record.ofCheck (listsSets o w) c verdict).map .record ++ tell o.behavior verdict⟩ := by
    rw [← h]
    rfl
  refine ⟨_, c, quiet_map_record hquiet, ?_⟩
  rw [hwork, hrecords, List.map_append, List.append_assoc]
  rfl

/-- The exit code and the errors of a check are told by its verdict, and so are its drawings, but
for the behavior. -/
theorem work_spec (o : Options) (w : World)
    (h : g.validate (input.toList ++ ['\n']) = verdict) :
    (work o w g input).exitCode = verdict.exitCode ∧
      (work o w g input).errors = complaints verdict ∧
      (work o w g input).drawings = drawn o.behavior verdict := by
  obtain ⟨before, c, hquiet, hwork⟩ := exists_work_eq_after o w h
  rw [hwork, Report.errors_after hquiet, Report.drawings_after hquiet]
  exact ⟨rfl, errors_closing o.behavior c verdict, drawings_closing o.behavior c verdict⟩

/-! ### The outcome of a run -/

/-- The same options but for how much is said, and what is done with a valid input. -/
def Options.tuned (o : Options) (verbosity : Verbosity) (behavior : Behavior) : Options :=
  { o with verbosity := verbosity, behavior := behavior }

/-- Verbosity and behavior have no part in a run before the input is checked: it fails with one
error, and not with exit code zero, or it checks an input. Until then there are no errors and no
drawings. -/
theorem run_tuned_cases (hinteractive : o.interactive = false)
    (hworker : w.worker 0 = .finishes) :
    (∃ before exitCode message, Quiet before ∧ exitCode ≠ 0 ∧ ∀ v b,
      run (o.tuned v b) w = (Report.failure exitCode message).after before) ∨
    ∃ before text g input, Quiet before ∧ w.Holds o.grammar text ∧
      Grammar.compile text.toList o.start = .ok g ∧ w.Supplies o input ∧ ∀ v b,
        run (o.tuned v b) w = (work (o.tuned v b) w g input).after before := by
  cases htext : w.readText o.grammar with
  | error message =>
    exact .inl ⟨[], exitRead, message, ⟨rfl, rfl⟩, by decide, fun v b => run_of_unread htext⟩
  | ok text =>
    have hholds : w.Holds o.grammar text := World.readText_eq_ok_iff.1 htext
    have hcompiling : Quiet ((Record.ofCompile text.toList o.start).map .record) :=
      quiet_map_record fun r hr => Record.level_ne_error_of_mem_ofCompile hr
    cases hcompile : Grammar.compile text.toList o.start with
    | error e =>
      exact .inl ⟨_, exitGrammar, o.grammar ++ ": " ++ e.display, hcompiling, by decide,
        fun v b => run_of_compile_error (o := o.tuned v b) hholds hcompile⟩
    | ok g =>
      have hloaded : Quiet ((Record.ofCompile text.toList o.start).map .record ++
          [note .debug ("loaded " ++ toString g.rules.size ++ " rules from " ++ o.grammar)]) :=
        hcompiling.append ⟨rfl, rfl⟩
      cases hinput : w.readInput o with
      | error message =>
        refine .inl ⟨_, exitRead, message, hloaded, by decide, fun v b => ?_⟩
        have hfailure : runInput (o.tuned v b) w g = .failure exitRead message :=
          runInput_of_unread hinteractive hinput
        rw [← hfailure]
        exact run_of_compile hholds hcompile
      | ok input =>
        have hsupplies : w.Supplies o input := World.readInput_eq_ok_iff.1 hinput
        refine .inr ⟨_, text, g, input, hloaded, hholds, hcompile, hsupplies, fun v b => ?_⟩
        have htuned : w.Supplies (o.tuned v b) input := World.readInput_eq_ok_iff.1 hinput
        have hchecked : runInput (o.tuned v b) w g = work (o.tuned v b) w g input := by
          rw [runInput_of_supplies (o := o.tuned v b) hinteractive htuned,
            check_of_finishes hworker]
        rw [← hchecked]
        exact run_of_compile hholds hcompile

/-- Tells that a text is the drawing of the tree of the input that a run checks. -/
def DrawsTree (o : Options) (w : World) (drawing : String) : Prop :=
  ∃ text g input tree, w.Holds o.grammar text ∧ Grammar.compile text.toList o.start = .ok g ∧
    w.Supplies o input ∧ g.parseTree (input.toList ++ ['\n']) = .ok tree ∧ drawing = tree.draw

/-- What all runs come to that differ in nothing but verbosity and behavior. -/
structure Outcome (o : Options) (w : World) (exitCode : Nat) (errors : List Record)
    (drawing : String) : Prop where
  exitCode_eq : ∀ v b, (run (o.tuned v b) w).exitCode = exitCode
  errors_eq : ∀ v b, (run (o.tuned v b) w).errors = errors
  drawings_eq : ∀ v b,
    (run (o.tuned v b) w).drawings = if b = .tree ∧ exitCode = 0 then [drawing] else []
  errors_eq_nil : exitCode = 0 → errors = []
  drawsTree : exitCode = 0 → DrawsTree o w drawing

theorem exists_outcome (hinteractive : o.interactive = false)
    (hworker : w.worker 0 = .finishes) :
    ∃ exitCode errors drawing, Outcome o w exitCode errors drawing := by
  rcases run_tuned_cases hinteractive hworker with
    ⟨before, exitCode, message, hquiet, hne, hrun⟩ |
    ⟨before, text, g, input, hquiet, htext, hcompile, hinput, hrun⟩
  · -- The only piece behind the quiet ones is the record of the error.
    refine ⟨exitCode, [⟨.error, .command, message⟩], "", fun v b => ?_, fun v b => ?_,
      fun v b => ?_, fun h => absurd h hne, fun h => absurd h hne⟩
    · rw [hrun, Report.after, Report.failure]
    · rw [hrun, Report.errors_after hquiet]
      rfl
    · rw [hrun, Report.drawings_after hquiet, if_neg fun h => hne h.2]
      rfl
  · obtain ⟨verdict, hverdict⟩ : ∃ verdict, g.validate (input.toList ++ ['\n']) = verdict :=
      ⟨_, rfl⟩
    have hcheck : ∀ v b, (run (o.tuned v b) w).exitCode = verdict.exitCode ∧
        (run (o.tuned v b) w).errors = complaints verdict ∧
        (run (o.tuned v b) w).drawings = drawn b verdict := by
      intro v b
      rw [hrun, Report.errors_after hquiet, Report.drawings_after hquiet]
      exact work_spec (o.tuned v b) w hverdict
    -- Only a valid input has a drawing; for any other the one in the outcome is of no account.
    by_cases hcode : verdict.exitCode = 0
    · obtain ⟨tree, rfl⟩ := exists_valid_of_exitCode_eq_zero hcode
      refine ⟨0, [], tree.draw, fun v b => (hcheck v b).1, fun v b => (hcheck v b).2.1,
        fun v b => ?_, fun _ => rfl, fun _ => ?_⟩
      · simp [(hcheck v b).2.2, drawn]
      · exact ⟨text, g, input, tree, htext, hcompile, hinput,
          Grammar.validate_eq_valid_iff.1 hverdict, rfl⟩
    · refine ⟨_, _, "", fun v b => (hcheck v b).1, fun v b => (hcheck v b).2.1, fun v b => ?_,
        fun h => absurd h hcode, fun h => absurd h hcode⟩
      rw [(hcheck v b).2.2, drawn_eq_nil b hcode, if_neg fun h => hcode h.2]

/-- What a run prints. -/
def printed (f : Formatter) (o : Options) (w : World) : Printed f := (run o w).print f o w

/-- **The outcome does not depend on what is to be said of it.** Take all runs that are not
interactive, whose worker does not fail and that differ in nothing but verbosity and behavior. They
end with one exit code and tell of the same errors. The error stream lists those that the
environment does not leave out, so that any two of these streams are alike up to padding. If the
exit code is zero, there are none. With the least verbosity, and if the environment asks for no
more, the output is the drawing of the tree, if that is asked for and the code is zero, and
otherwise there is none. And where the chart of the input is to be listed, each item can be. -/
theorem outcome_independent_of_tuning (f : Formatter) (hf : f.PadsTopics) (o : Options)
    (w : World) (hinteractive : o.interactive = false) (hworker : w.worker 0 = .finishes) :
    (∀ v b, (run (o.tuned v b) w).exitCode = (run o w).exitCode) ∧
      (∀ v b, (run (o.tuned v b) w).errors = (run o w).errors ∧
        Lists f ((run o w).errors.filter (w.filters.admits .error))
          (printed f (o.tuned v b) w).errors) ∧
      (∀ v b v' b', Alike (printed f (o.tuned v b) w).errors (printed f (o.tuned v' b') w).errors) ∧
      ((run o w).exitCode = 0 → ∀ v b, (printed f (o.tuned v b) w).errors = "") ∧
      (w.filters = .unset → ∀ b,
        (b = .tree ∧ (run o w).exitCode = 0 →
          DrawsTree o w (printed f (o.tuned .unix b) w).output) ∧
        (¬(b = .tree ∧ (run o w).exitCode = 0) → (printed f (o.tuned .unix b) w).output = "")) ∧
      ∀ text g input, w.Holds o.grammar text → Grammar.compile text.toList o.start = .ok g →
        w.Supplies o input → ∀ k s,
          (Chart.ofInput g (input.toList ++ ['\n']).toArray).setAt? k = some s →
            ∀ item ∈ s.items, ∃ line, item.display? g = some line := by
  obtain ⟨exitCode, errors, drawing, h⟩ := exists_outcome hinteractive hworker
  have hcode : (run o w).exitCode = exitCode := h.exitCode_eq o.verbosity o.behavior
  have herrors : (run o w).errors = errors := h.errors_eq o.verbosity o.behavior
  have hlists : ∀ v b, Lists f (errors.filter (w.filters.admits .error))
      (printed f (o.tuned v b) w).errors := by
    intro v b
    rw [← h.errors_eq v b]
    exact Printed.lists_errors_ofPieces f w.filters v.limit _
  have houtput : w.filters = .unset → ∀ b, (printed f (o.tuned .unix b) w).output =
      String.join (if b = .tree ∧ exitCode = 0 then [drawing] else []) := by
    intro hfilters b
    rw [← h.drawings_eq .unix b, printed, Report.print, hfilters]
    exact Printed.output_ofPieces_error f _
  rw [hcode, herrors]
  refine ⟨h.exitCode_eq, fun v b => ⟨h.errors_eq v b, hlists v b⟩,
    fun v b v' b' => (hlists v b).alike hf (hlists v' b'), fun hzero v b => ?_,
    fun hfilters b => ⟨fun hb => ?_, fun hb => ?_⟩,
    fun text g input _ hcompile _ k s hs item hitem => ?_⟩
  · have hlist := hlists v b
    rw [h.errors_eq_nil hzero] at hlist
    exact hlist.eq_empty
  · rw [houtput hfilters, if_pos hb, String.join_cons, String.join_nil, String.append_empty]
    exact h.drawsTree hb.2
  · rw [houtput hfilters, if_neg hb, String.join_nil]
  · exact Chart.exists_display? (Grammar.wellFormed_of_compile hcompile) hs hitem

theorem exitCode_run_lineOptions : (run (lineOptions "g" "s") lineWorld).exitCode = 0 := by
  obtain ⟨g, hg, hyields⟩ := exists_compile_lineText
  have hholds : lineWorld.Holds (lineOptions "g" "s").grammar lineText := rfl
  rw [exitCode_run_of_compile hholds hg, runInput_of_supplies rfl (supplies_lineWorld "g" "s"),
    check_of_finishes rfl]
  exact exitCode_work_of_yields (Grammar.wellFormed_of_compile hg) hyields

theorem errors_run_lineOptions :
    (run (lineOptions "h" "s") lineWorld).errors =
      [⟨.error, .command, "Could not read h: stream did not contain valid UTF-8"⟩] := by
  decide +kernel

/-- A line that is valid, and a grammar that has no text. -/
theorem outcome_independent_of_tuning_lineWorld :
    (∀ v b, (run ((lineOptions "g" "s").tuned v b) lineWorld).exitCode = 0) ∧
      (∀ v b, (printed .aligned ((lineOptions "g" "s").tuned v b) lineWorld).errors = "") ∧
      DrawsTree (lineOptions "g" "s") lineWorld
        (printed .aligned ((lineOptions "g" "s").tuned .unix .tree) lineWorld).output ∧
      (printed .aligned ((lineOptions "g" "s").tuned .unix .validate) lineWorld).output = "" ∧
      (∀ v b, (run ((lineOptions "h" "s").tuned v b) lineWorld).exitCode = 4) ∧
      ∀ v b, Lists .aligned
        [⟨.error, .command, "Could not read h: stream did not contain valid UTF-8"⟩]
        (printed .aligned ((lineOptions "h" "s").tuned v b) lineWorld).errors := by
  have hzero := exitCode_run_lineOptions
  have hfour : (run (lineOptions "h" "s") lineWorld).exitCode = 4 :=
    exitCode_run_of_unread not_holds_lineWorld
  obtain ⟨hcode, -, -, hsilent, houtput, -⟩ :=
    outcome_independent_of_tuning .aligned Formatter.padsTopics_aligned (lineOptions "g" "s")
      lineWorld rfl rfl
  obtain ⟨hcode', herrors, -⟩ :=
    outcome_independent_of_tuning .aligned Formatter.padsTopics_aligned (lineOptions "h" "s")
      lineWorld rfl rfl
  rw [errors_run_lineOptions] at herrors
  refine ⟨fun v b => (hcode v b).trans hzero, hsilent hzero, (houtput rfl .tree).1 ⟨rfl, hzero⟩,
    (houtput rfl .validate).2 fun h => ?_, fun v b => (hcode' v b).trans hfour,
    fun v b => (herrors v b).2⟩
  exact absurd h.1 (by decide)

end Command

end Earley
