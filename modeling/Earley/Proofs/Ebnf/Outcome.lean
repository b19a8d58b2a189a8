/-
  What compilation gives, for every text and start symbol.

  The faults come in a fixed order: syntax, a repeated alternative, a name that is not declared, the
  start symbol. Each fault arises just if the condition for it holds and those before do not
  (`compile_outcome`), and if no condition holds there is a grammar, so the builder adds no error of
  its own. Every error is located in the text: at a token, where a token is misspelled, or at the
  end.
-/
import Earley.Proofs.Ebnf.Buildable
import Earley.Proofs.Ebnf.Reader
import Earley.Proofs.Ebnf.Repetition
import Earley.Proofs.Ebnf.TokenStream

namespace Earley

/-! ### Places in a text -/

/-- Tells that a location is that of a character of a text, or its end. -/
def Location.IsIn (text : List Char) (location : Location) : Prop :=
  ∃ k ≤ text.length, location = .locate text k

theorem Location.isIn_endOf (text : List Char) : (endOf text).IsIn text :=
  ⟨text.length, le_rfl, by rw [locate, List.take_length, endOf]⟩

/-- The place of a token by its number; behind the last token, the end of the text. -/
def Lexeme.placeOf (lexemes : List Lexeme) (endOfText : Location) (i : Nat) : Location :=
  match lexemes[i]? with
  | some lexeme => lexeme.location
  | none => endOfText

variable {text : List Char} {lexemes : List Lexeme} {ds merged : List Declaration}
  {start : String} {endOfText : Location}

theorem isIn_of_tokenize (h : tokenize text = .ok lexemes) :
    ∀ lexeme ∈ lexemes, lexeme.location.IsIn text := by
  have hlocate := (TokenStream.collect_spec text).1.exists_locate.1
  simp only [tokenize] at h
  split at h
  · cases h
  · cases h
    exact hlocate

theorem isIn_of_tokenize_error {e : TokenError} (h : tokenize text = .error e) :
    e.location.IsIn text := by
  have hlocate := (TokenStream.collect_spec text).1.exists_locate.2
  simp only [tokenize] at h
  split at h
  · next hfailure =>
    cases h
    exact hlocate e hfailure
  · cases h

namespace Declaration

/-- Names and references stand where an identifier stands. -/
theorem exists_lexeme_of_mem_written (h : ofLexemes lexemes endOfText = .ok ds) {d : Declaration}
    (hd : d ∈ ds) {name : String} {location : Location}
    (hmem : ⟨.identifier name, location⟩ ∈ d.written) :
    ∃ lexeme ∈ lexemes, location = lexeme.location := by
  obtain ⟨-, hwritten⟩ := ofLexemes_eq_ok_iff.1 h
  have hmem' : (⟨.identifier name, location⟩ : Lexeme) ∈ lexemes.map Lexeme.bare := by
    rw [hwritten]
    exact List.mem_flatMap.2 ⟨d, hd, hmem⟩
  obtain ⟨lexeme, hlexeme, hbare⟩ := List.mem_map.1 hmem'
  obtain rfl := Lexeme.bare_eq_identifier_iff.1 hbare
  exact ⟨_, hlexeme, rfl⟩

/-! ### Faults of syntax -/

/-- Tokens that form no declarations are a fault of syntax at one of them, or at the end. -/
theorem ofLexemes_error {e : CompileError} (h : ofLexemes lexemes endOfText = .error e) :
    e.fault = .syntaxError ∧
      (e.location = endOfText ∨ ∃ lexeme ∈ lexemes, e.location = lexeme.location) := by
  unfold ofLexemes at h
  cases hrun : lexemes.foldlM Reader.step Reader.start with
  | ok r =>
    rw [hrun] at h
    obtain ⟨hfault, hlocation⟩ := Reader.finish_error h
    exact ⟨hfault, Or.inl hlocation⟩
  | error e' =>
    rw [hrun] at h
    cases h
    obtain ⟨before, lexeme, after, r, rfl, hbefore, hstep⟩ := foldlM_eq_error_iff.1 hrun
    obtain ⟨hfault, hlocation | ⟨lower, hlower, hlocation⟩⟩ := Reader.step_error hstep
    · exact ⟨hfault, Or.inr ⟨lexeme, by simp, hlocation⟩⟩
    · -- The lower bound is a token that was read before.
      have hrun : Reader.Run .start before r := hbefore
      rcases hrun.lower lower hlower with ⟨lexeme', hmem, hlocation'⟩ | hstart
      · exact ⟨hfault, Or.inr ⟨lexeme', List.mem_append_left _ hmem, hlocation.trans hlocation'⟩⟩
      · cases hstart

theorem exists_ofChars_error_iff :
    (∃ e, ofChars text = .error e) ↔
      (∃ e, tokenize text = .error e) ∨
        ∃ lexemes e, tokenize text = .ok lexemes ∧ ofLexemes lexemes (.endOf text) = .error e := by
  unfold ofChars
  cases tokenize text with
  | error e => simp
  | ok lexemes => simp

/-- A text that cannot be read has a fault of syntax somewhere in it. -/
theorem ofChars_error {e : CompileError} (h : ofChars text = .error e) :
    e.fault = .syntaxError ∧ e.location.IsIn text := by
  unfold ofChars at h
  split at h
  · next htokens =>
    cases h
    exact ⟨rfl, isIn_of_tokenize_error htokens⟩
  · next lexemes htokens =>
    obtain ⟨hfault, hend | ⟨lexeme, hlexeme, hlocation⟩⟩ := ofLexemes_error h
    · rw [hend]
      exact ⟨hfault, Location.isIn_endOf text⟩
    · rw [hlocation]
      exact ⟨hfault, isIn_of_tokenize htokens lexeme hlexeme⟩

theorem ofChars_eq_ok_iff :
    ofChars text = .ok ds ↔
      ∃ lexemes, tokenize text = .ok lexemes ∧ ofLexemes lexemes (.endOf text) = .ok ds := by
  unfold ofChars
  cases tokenize text with
  | error e => simp
  | ok lexemes => simp

theorem writable_of_ofChars (h : ofChars text = .ok ds) : ∀ d ∈ ds, d.Writable := by
  obtain ⟨lexemes, -, hlexemes⟩ := ofChars_eq_ok_iff.1 h
  exact (ofLexemes_eq_ok_iff.1 hlexemes).1

/-- The names and the references in declarations stand in the text. -/
theorem isIn_of_mem_written (h : ofChars text = .ok ds) {d : Declaration} (hd : d ∈ ds)
    {name : String} {location : Location} (hmem : ⟨.identifier name, location⟩ ∈ d.written) :
    location.IsIn text := by
  obtain ⟨lexemes, htokens, hlexemes⟩ := ofChars_eq_ok_iff.1 h
  obtain ⟨lexeme, hlexeme, hlocation⟩ := exists_lexeme_of_mem_written hlexemes hd hmem
  rw [hlocation]
  exact isIn_of_tokenize htokens lexeme hlexeme

/-- Merging leaves the references where they stand. -/
theorem isIn_of_mem_references_merge (h : ofChars text = .ok ds) (hmerge : merge ds = .ok merged)
    {d : Declaration} (hd : d ∈ merged) {reference : Reference} (hmem : reference ∈ d.references) :
    reference.location.IsIn text := by
  obtain ⟨alternative, ha, atom, hatom, hmentions⟩ := mem_references_iff.1 hmem
  obtain ⟨d', hd', -, ha'⟩ := (mem_body_merge_iff hmerge hd).1 ha
  have hmem' : reference ∈ d'.references :=
    mem_references_iff.2 ⟨alternative, ha', atom, hatom, hmentions⟩
  exact isIn_of_mem_written h hd' (mem_written_of_mem_references hmem')

/-! ### Faults of names -/

/-- Tells that some body mentions, at any depth of brackets, a name that is not declared. -/
def MentionsUndeclared (ds : List Declaration) : Prop :=
  ∃ d ∈ ds, ∃ alternative ∈ d.body, ∃ atom ∈ alternative, ∃ reference,
    atom.Mentions reference ∧ reference.name ∉ ds.map name

/-- Merging keeps what is mentioned and what is declared. -/
theorem mentionsUndeclared_merge_iff (h : merge ds = .ok merged) :
    MentionsUndeclared merged ↔ MentionsUndeclared ds := by
  simp only [MentionsUndeclared, mem_map_name_merge h]
  exact exists_alternative_merge_iff h

theorem mentionsUndeclared_iff :
    MentionsUndeclared ds ↔
      ∃ d ∈ ds, ∃ reference ∈ d.references, reference.name ∉ ds.map name := by
  simp only [MentionsUndeclared, mem_references_iff]
  constructor
  · rintro ⟨d, hd, alternative, ha, atom, hatom, reference, hmentions, hname⟩
    exact ⟨d, hd, reference, ⟨alternative, ha, atom, hatom, hmentions⟩, hname⟩
  · rintro ⟨d, hd, reference, ⟨alternative, ha, atom, hatom, hmentions⟩, hname⟩
    exact ⟨d, hd, alternative, ha, atom, hatom, reference, hmentions, hname⟩

theorem not_mentionsUndeclared_iff :
    ¬MentionsUndeclared ds ↔
      ∀ d ∈ ds, ∀ reference ∈ d.references, reference.name ∈ ds.map name := by
  rw [mentionsUndeclared_iff]
  push Not
  rfl

/-- The checks fail at a name that is mentioned and not declared, or else at the start symbol. -/
theorem check_error {e : CompileError} (h : check merged start endOfText = .error e) :
    e.fault = .undefinedSymbol ∧
        (∃ d ∈ merged, ∃ reference ∈ d.references,
          reference.name ∉ merged.map name ∧ e.location = reference.location) ∨
      e.fault = .missingStart ∧ ¬MentionsUndeclared merged ∧ start ∉ merged.map name ∧
        e.location = endOfText := by
  unfold check at h
  cases hundefined : undefined? merged with
  | some reference =>
    rw [hundefined] at h
    cases h
    unfold undefined? at hundefined
    have hmem := List.mem_of_find?_eq_some hundefined
    have hname := List.find?_some hundefined
    obtain ⟨d, hd, hreference⟩ := List.mem_flatMap.1 hmem
    simp only [Std.HashSet.contains_ofList, Bool.not_eq_true', List.contains_eq_mem,
      decide_eq_false_iff_not] at hname
    exact Or.inl ⟨rfl, d, hd, reference, hreference, hname, rfl⟩
  | none =>
    rw [hundefined] at h
    dsimp only at h
    split at h
    · cases h
    · next hstart =>
      cases h
      have hdeclared := not_mentionsUndeclared_iff.2 (undefined?_eq_none_iff.1 hundefined)
      refine Or.inr ⟨rfl, hdeclared, fun hmem => hstart ?_, rfl⟩
      obtain ⟨d, hd, rfl⟩ := List.mem_map.1 hmem
      exact List.any_eq_true.2 ⟨d, hd, beq_self_eq_true _⟩

end Declaration

/-! ### The outcome of a compilation -/

namespace Grammar

/-- Tells that compilation fails with a kind of fault. -/
def FailsWith (text : List Char) (start : String) (fault : Fault) : Prop :=
  ∃ e, compile text start = .error e ∧ e.fault = fault

/-- A text that cannot be read gives no grammar. -/
theorem compile_of_ofChars_error {e : CompileError} (h : Declaration.ofChars text = .error e) :
    compile text start = .error e := by
  rw [compile, h]
  rfl

theorem compile_of_merge_error {e : CompileError} (h : Declaration.ofChars text = .ok ds)
    (hmerge : Declaration.merge ds = .error e) : compile text start = .error e := by
  simp [compile, h, hmerge, bind, Except.bind]

theorem compile_of_check_error {e : CompileError} (h : Declaration.ofChars text = .ok ds)
    (hmerge : Declaration.merge ds = .ok merged)
    (hcheck : Declaration.check merged start (.endOf text) = .error e) :
    compile text start = .error e := by
  simp [compile, h, hmerge, Declaration.compile, hcheck, bind, Except.bind]

/-- Declarations of a text that were merged and pass the checks put a grammar together. -/
theorem exists_build_of_check (h : Declaration.ofChars text = .ok ds)
    (hmerge : Declaration.merge ds = .ok merged)
    (hcheck : Declaration.check merged start (.endOf text) = .ok ()) :
    ∃ g, build (Declaration.allSteps merged) start = .ok g := by
  obtain ⟨hreferences, hstart⟩ := Declaration.check_eq_ok_iff.1 hcheck
  have hwritable := Declaration.writable_merge hmerge (Declaration.writable_of_ofChars h)
  have hidentifier := Declaration.isIdentifier_of_merge h hmerge
  exact Declaration.exists_build hidentifier hwritable hreferences hstart

theorem exists_compile_of_check (h : Declaration.ofChars text = .ok ds)
    (hmerge : Declaration.merge ds = .ok merged)
    (hcheck : Declaration.check merged start (.endOf text) = .ok ()) :
    ∃ g, compile text start = .ok g := by
  obtain ⟨g, hbuild⟩ := exists_build_of_check h hmerge hcheck
  exact ⟨g, compile_eq_ok_iff.2 ⟨ds, h, merged, hmerge,
    Declaration.compile_eq_ok_iff.2 ⟨hcheck, hbuild⟩⟩⟩

/-- What compilation can give for a text with the declarations `ds`: the fault whose condition is
the first to hold, somewhere in the text, or a grammar if none does. -/
inductive Outcome (text : List Char) (start : String) (ds : List Declaration) :
    Except CompileError Grammar → Prop
  | repetition {e : CompileError} (hfault : e.fault = .duplicateRule)
      (hlocation : e.location.IsIn text) (h : Declaration.HasRepetition ds) :
      Outcome text start ds (.error e)
  | undeclared {e : CompileError} (hfault : e.fault = .undefinedSymbol)
      (hlocation : e.location.IsIn text) (hunrepeated : ¬Declaration.HasRepetition ds)
      (h : Declaration.MentionsUndeclared ds) : Outcome text start ds (.error e)
  | missingStart {e : CompileError} (hfault : e.fault = .missingStart)
      (hlocation : e.location.IsIn text) (hunrepeated : ¬Declaration.HasRepetition ds)
      (hdeclared : ¬Declaration.MentionsUndeclared ds) (h : start ∉ ds.map Declaration.name) :
      Outcome text start ds (.error e)
  | grammar {g : Grammar} (hunrepeated : ¬Declaration.HasRepetition ds)
      (hdeclared : ¬Declaration.MentionsUndeclared ds) (h : start ∈ ds.map Declaration.name) :
      Outcome text start ds (.ok g)

theorem outcome_compile (h : Declaration.ofChars text = .ok ds) (start : String) :
    Outcome text start ds (compile text start) := by
  cases hmerge : Declaration.merge ds with
  | error e =>
    have hrepetition := Declaration.exists_merge_eq_error_iff.1 ⟨e, hmerge⟩
    obtain ⟨before, later, after, rfl, -, -, rfl⟩ := Declaration.merge_eq_error_iff.1 hmerge
    have hlocation : later.location.IsIn text :=
      Declaration.isIn_of_mem_written h (by simp) later.mem_written_name
    rw [compile_of_merge_error h hmerge]
    exact .repetition rfl hlocation hrepetition
  | ok merged =>
    have hunrepeated : ¬Declaration.HasRepetition ds := by
      rw [← Declaration.exists_merge_eq_error_iff, hmerge]
      rintro ⟨e, he⟩
      cases he
    have hundeclared := Declaration.mentionsUndeclared_merge_iff hmerge
    have hnames : start ∈ merged.map Declaration.name ↔ start ∈ ds.map Declaration.name :=
      Declaration.mem_map_name_merge hmerge
    cases hcheck : Declaration.check merged start (.endOf text) with
    | error e =>
      rw [compile_of_check_error h hmerge hcheck]
      rcases Declaration.check_error hcheck with
        ⟨hfault, d, hd, reference, hreference, hname, hlocation⟩ |
          ⟨hfault, hdeclared, hstart, hlocation⟩
      · have hisIn := Declaration.isIn_of_mem_references_merge h hmerge hd hreference
        have hmentions := Declaration.mentionsUndeclared_iff.2 ⟨d, hd, reference, hreference, hname⟩
        exact .undeclared hfault (hlocation ▸ hisIn) hunrepeated (hundeclared.1 hmentions)
      · rw [hundeclared] at hdeclared
        rw [hnames] at hstart
        exact .missingStart hfault (hlocation ▸ Location.isIn_endOf text) hunrepeated hdeclared
          hstart
    | ok u =>
      obtain ⟨g, hcompile⟩ := exists_compile_of_check h hmerge hcheck
      obtain ⟨hreferences, hstart⟩ := Declaration.check_eq_ok_iff.1 hcheck
      have hdeclared := Declaration.not_mentionsUndeclared_iff.2 hreferences
      rw [hundeclared] at hdeclared
      rw [hcompile]
      exact .grammar hunrepeated hdeclared (hnames.1 hstart)

end Grammar

open Declaration in
/-- **Compilation fails just when it should.** A text has a fault of syntax if it does not split
into tokens or these form no declarations. Otherwise the fault is a repeated alternative, if there
is one; otherwise a name that is mentioned and not declared, if there is one; otherwise the start
symbol, if it is not declared; otherwise there is a grammar. Every error is located in the text, and
behind the checks the builder does not fail. -/
theorem compile_outcome (text : List Char) (start : String) :
    (Grammar.FailsWith text start .syntaxError ↔
      (∃ e, tokenize text = .error e) ∨
        ∃ lexemes e, tokenize text = .ok lexemes ∧ ofLexemes lexemes (.endOf text) = .error e) ∧
    (Grammar.FailsWith text start .duplicateRule ↔
      ∃ ds, ofChars text = .ok ds ∧ HasRepetition ds) ∧
    (Grammar.FailsWith text start .undefinedSymbol ↔
      ∃ ds, ofChars text = .ok ds ∧ ¬HasRepetition ds ∧ MentionsUndeclared ds) ∧
    (Grammar.FailsWith text start .missingStart ↔
      ∃ ds, ofChars text = .ok ds ∧ ¬HasRepetition ds ∧ ¬MentionsUndeclared ds ∧
        start ∉ ds.map name) ∧
    ((∃ g, Grammar.compile text start = .ok g) ↔
      ∃ ds, ofChars text = .ok ds ∧ ¬HasRepetition ds ∧ ¬MentionsUndeclared ds ∧
        start ∈ ds.map name) ∧
    (∀ e, Grammar.compile text start = .error e → e.location.IsIn text) ∧
    ∀ ds merged, ofChars text = .ok ds → merge ds = .ok merged →
      check merged start (.endOf text) = .ok () →
        ∃ g, Grammar.build (allSteps merged) start = .ok g := by
  rw [← exists_ofChars_error_iff]
  cases h : ofChars text with
  | error e =>
    obtain ⟨hfault, hlocation⟩ := ofChars_error h
    simp [Grammar.FailsWith, Grammar.compile_of_ofChars_error h, hfault, hlocation]
  | ok ds =>
    have hbuild (merged : List Declaration) (hmerge : merge ds = .ok merged)
        (hcheck : check merged start (.endOf text) = .ok ()) :
        ∃ g, Grammar.build (allSteps merged) start = .ok g :=
      Grammar.exists_build_of_check h hmerge hcheck
    have houtcome := Grammar.outcome_compile h start
    unfold Grammar.FailsWith
    generalize Grammar.compile text start = result at houtcome
    -- Each outcome comes with what its statement and all others say, and no two have one fault.
    cases houtcome <;> simp_all

theorem compile_outcome_nested :
    (∃ g, Grammar.build (Declaration.allSteps [nestedDeclaration]) "s" = .ok g) ∧
      ∃ e, Grammar.compile nestedText "t" = .error e ∧ e.fault = .missingStart ∧
        e.location.IsIn nestedText := by
  have hmerge : Declaration.merge [nestedDeclaration] = .ok [nestedDeclaration] := rfl
  have hunrepeated : ¬Declaration.HasRepetition [nestedDeclaration] := by
    rw [← Declaration.exists_merge_eq_error_iff, hmerge]
    simp
  have hdeclared : ¬Declaration.MentionsUndeclared [nestedDeclaration] :=
    Declaration.not_mentionsUndeclared_iff.2 (by decide)
  have hcheck : Declaration.check [nestedDeclaration] "s" (.endOf nestedText) = .ok () :=
    Declaration.check_eq_ok_iff.2 (by decide)
  obtain ⟨-, -, -, -, -, -, hbuild⟩ := compile_outcome nestedText "s"
  obtain ⟨-, -, -, hmissing, -, hlocation, -⟩ := compile_outcome nestedText "t"
  obtain ⟨e, hcompile, hfault⟩ :=
    hmissing.2 ⟨_, ofChars_nestedText, hunrepeated, hdeclared, by decide⟩
  exact ⟨hbuild _ _ ofChars_nestedText hmerge hcheck, e, hcompile, hfault, hlocation e hcompile⟩

end Earley
