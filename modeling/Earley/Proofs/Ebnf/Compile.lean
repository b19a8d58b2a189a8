/-
  Compilation keeps the languages of declarations.

  The non-terminal of a declared name derives exactly the texts that the name has in the least
  solution of the declarations (`compile_preserves_language`).

  A valuation that is closed under all steps of the compilation is a solution of the declarations
  up to inclusion (`reading_le`), so the least solution is below it. In the other direction, the
  least solution is extended to the names of terminals and brackets (`extended`); since no two of
  these names are the same and none is declared, the extension is closed under all steps. What the
  grammar gives to the names is the least closed valuation, so it lies between the two.
-/
import Earley.Proofs.Ebnf.Flatten
import Earley.Proofs.Grammar.WellFormed

namespace Earley

namespace Declaration

variable {declarations merged : List Declaration} {V env : Valuation} {n : String}

/-! ### Checked declarations -/

/-- The names of merged declarations are identifiers. -/
theorem isIdentifier_of_merge {text : List Char} (hread : ofChars text = .ok declarations)
    (hmerge : merge declarations = .ok merged) : ∀ d ∈ merged, IsIdentifier d.name := by
  intro d hd
  obtain ⟨d', hd', hname⟩ :=
    List.mem_map.1 ((mem_map_name_merge hmerge).1 (List.mem_map_of_mem hd))
  exact hname ▸ isIdentifier_of_ofChars hread d' hd'

theorem undefined?_eq_none_iff :
    undefined? merged = none ↔
      ∀ d ∈ merged, ∀ reference ∈ d.references, reference.name ∈ merged.map name := by
  simp only [undefined?, List.find?_eq_none, List.mem_flatMap, Std.HashSet.contains_ofList,
    Bool.not_eq_true', Bool.not_eq_false, List.contains_iff_mem]
  constructor
  · exact fun h d hd reference hreference => h reference ⟨d, hd, hreference⟩
  · rintro h reference ⟨d, hd, hreference⟩
    exact h d hd reference hreference

/-- Declarations pass the checks if every reference, and the start symbol, is declared. -/
theorem check_eq_ok_iff {start : String} {endOfText : Location} :
    check merged start endOfText = .ok () ↔
      (∀ d ∈ merged, ∀ reference ∈ d.references, reference.name ∈ merged.map name) ∧
        start ∈ merged.map name := by
  rw [← undefined?_eq_none_iff, check]
  cases undefined? merged with
  | some reference => simp
  | none => simp [List.mem_map]

/-! ### All steps of a compilation -/

theorem forall_mem_allStepsBy {form : Terminal → String} {P : Step → Prop} :
    (∀ step ∈ allStepsBy form merged, P step) ↔
      (∀ d ∈ merged, P (.nonterm true d.name)) ∧
        ∀ d ∈ merged, (Atom.flattenAmong form d.name d.name [] 0 d.body).1.All P := by
  simp only [allStepsBy, bodyStepsBy, List.forall_mem_append, List.forall_mem_map,
    List.forall_mem_flatMap, stepsBy, Steps.All]

/-- Declared names and the names of brackets keep apart from the forms of terminals, whichever
characters are visible in these. -/
theorem keepsApart_allStepsBy (visible : Char → Bool) (h : ∀ d ∈ merged, IsIdentifier d.name) :
    ∀ step ∈ allStepsBy (Terminal.displayBy visible) merged,
      step.KeepsApart (Terminal.displayBy visible) :=
  forall_mem_allStepsBy.2 ⟨fun d hd => (h d hd).ne_displayBy visible,
    fun d hd => Atom.keepsApart_flattenAmong
      (fun bracket number => bracket.auxiliary_ne_displayBy (h d hd) number visible) 0 d.body⟩

theorem keepsApart_allSteps (h : ∀ d ∈ merged, IsIdentifier d.name) :
    ∀ step ∈ allSteps merged, step.KeepsApart Terminal.display :=
  keepsApart_allStepsBy isVisible h

/-! ### The least solution is below -/

/-- A valuation that is closed under all steps solves the equations up to inclusion. -/
theorem reading_le (hnodup : (merged.map name).Nodup)
    (hV : ∀ step ∈ allSteps merged, V.ClosedUnder step) : reading merged V ≤ V := by
  intro n
  by_cases hn : n ∈ merged.map name
  · -- The rules of the one declaration of the name ask for all of its alternatives.
    obtain ⟨d, hd, rfl⟩ := List.mem_map.1 hn
    have hbody := Atom.languageAmong_le_head d.body ((forall_mem_allStepsBy.1 hV).2 d hd)
    rwa [Valuation.sequence_nil, one_mul, ← alternativesOf_eq_body hnodup hd] at hbody
  · rw [reading_eq_zero hn]
    exact zero_le

/-! ### The least solution is above -/

/-- What a name has if `env` is extended to the names of terminals and of brackets. -/
inductive MemExtended (declarations : List Declaration) (env : Valuation) (n : String)
    (w : List Char) : Prop
  | declared (hn : n ∈ declarations.map name) (hw : w ∈ env n)
  | terminal (t : Terminal) (hn : n = t.display) (hw : t.Matches w)
  | bracket (d : Declaration) (i : Nat) (bracket : Bracket) (body : List (List Atom))
    (hd : d ∈ declarations) (hi : (Atom.bracketsAmong d.body)[i]? = some (bracket, body))
    (hn : n = bracket.auxiliary d.name (i + 1))
    (hw : w ∈ bracket.language (Atom.languageAmong env body))

/-- A valuation of the declared names, extended to the names of terminals and of brackets. -/
def extended (declarations : List Declaration) (env : Valuation) : Valuation := fun n =>
  {w | MemExtended declarations env n w}

theorem mem_extended_iff {w : List Char} :
    w ∈ extended merged env n ↔ MemExtended merged env n w := Iff.rfl

section Extended

variable (hidentifier : ∀ d ∈ merged, IsIdentifier d.name)

include hidentifier

theorem isIdentifier_of_mem_map_name (hn : n ∈ merged.map name) : IsIdentifier n := by
  obtain ⟨d, hd, rfl⟩ := List.mem_map.1 hn
  exact hidentifier d hd

theorem extended_of_mem (hn : n ∈ merged.map name) : extended merged env n = env n := by
  have hid := isIdentifier_of_mem_map_name hidentifier hn
  ext w
  rw [mem_extended_iff]
  constructor
  · intro h
    cases h with
    | declared _ hw => exact hw
    | terminal t hdisplay => exact absurd hdisplay (hid.ne_display t)
    | bracket d i bracket _ _ _ hauxiliary =>
      exact absurd hauxiliary (Bracket.ne_auxiliary hid bracket d.name (i + 1))
  · exact .declared hn

theorem namesTerminals_extended : (extended merged env).NamesTerminals := by
  intro t
  ext w
  rw [mem_extended_iff]
  constructor
  · intro h
    cases h with
    | declared hn =>
      exact absurd rfl ((isIdentifier_of_mem_map_name hidentifier hn).ne_display t)
    | terminal t' hdisplay hw =>
      rw [Terminal.display_injective hdisplay]
      exact hw
    | bracket d i bracket _ hd _ hauxiliary =>
      exact absurd hauxiliary.symm (bracket.auxiliary_ne_display (hidentifier d hd) (i + 1) t)
  · exact .terminal t rfl

theorem namesBrackets_extended (hnodup : (merged.map name).Nodup) {d : Declaration}
    (hd : d ∈ merged) :
    (extended merged env).NamesBrackets env d.name 0 (Atom.bracketsAmong d.body) := by
  intro i bracket body hi
  rw [Nat.zero_add]
  ext w
  rw [mem_extended_iff]
  constructor
  · intro h
    cases h with
    | declared hn =>
      have hid := isIdentifier_of_mem_map_name hidentifier hn
      exact absurd rfl (Bracket.ne_auxiliary hid bracket d.name (i + 1))
    | terminal t hdisplay =>
      exact absurd hdisplay (bracket.auxiliary_ne_display (hidentifier d hd) (i + 1) t)
    | bracket d' i' bracket' body' hd' hi' hauxiliary hw =>
      -- The name tells the declaration and the number, and with them the bracket.
      obtain ⟨rfl, hname, hnumber⟩ := Bracket.auxiliary_inj (hidentifier d hd).tilde_notMem
        (hidentifier d' hd').tilde_notMem hauxiliary
      have hbody : d.body = d'.body := by
        rw [← alternativesOf_eq_body hnodup hd, ← alternativesOf_eq_body hnodup hd', hname]
      obtain rfl : i = i' := by omega
      rw [hbody, hi'] at hi
      cases hi
      exact hw
  · exact .bracket d i bracket body hd hi rfl

/-- The least solution, extended, is closed under all steps. -/
theorem closedUnder_extended (hnodup : (merged.map name).Nodup)
    (hreferences : ∀ d ∈ merged, ∀ reference ∈ d.references, reference.name ∈ merged.map name) :
    ∀ step ∈ allSteps merged, (extended merged (solution merged)).ClosedUnder step := by
  refine forall_mem_allStepsBy.2 ⟨fun _ _ => trivial, fun d hd => ?_⟩
  refine Atom.all_closedUnder_flattenAmong (namesTerminals_extended hidentifier) d.body
    (fun reference hmem => extended_of_mem hidentifier (hreferences d hd reference hmem))
    (namesBrackets_extended hidentifier hnodup hd) ?_
  -- What is left is that the declared name has what its alternatives denote.
  have hsolution : solution merged d.name = Atom.languageAmong (solution merged) d.body := by
    rw [← alternativesOf_eq_body hnodup hd]
    exact (congrFun (reading_solution merged) d.name).symm
  rw [Valuation.sequence_nil, one_mul, extended_of_mem hidentifier (List.mem_map_of_mem hd),
    hsolution]

end Extended

/-! ### What the grammar gives to declared names -/

section Build

variable {start : String} {g : Grammar} (hidentifier : ∀ d ∈ merged, IsIdentifier d.name)
  (hbuild : Grammar.build (allSteps merged) start = .ok g)

include hidentifier hbuild

theorem valuation_eq_solution (hnodup : (merged.map name).Nodup)
    (hreferences : ∀ d ∈ merged, ∀ reference ∈ d.references, reference.name ∈ merged.map name)
    (hn : n ∈ merged.map name) :
    (Builder.run (allSteps merged)).valuation g n = solution merged n := by
  obtain ⟨herror, -, -, -, hrules, -⟩ := Builder.finish_eq_ok_iff.1 hbuild
  obtain ⟨hclosed, hleast⟩ := Builder.isLeast_valuation hrules herror fun _ _ _ =>
    Builder.symbols_of_mem_terminal herror (keepsApart_allSteps hidentifier)
  apply le_antisymm
  · have hle := hleast (closedUnder_extended hidentifier hnodup hreferences) n
    rwa [extended_of_mem hidentifier hn] at hle
  · exact solution_le (reading_le hnodup hclosed) n

theorem exists_nonterm_of_mem (hn : n ∈ merged.map name) :
    ∃ id, g.nonterm? n = some id ∧
      (Builder.run (allSteps merged)).symbols[n]? = some (.nonterm id) := by
  obtain ⟨herror, -, -, hnonterms, -⟩ := Builder.finish_eq_ok_iff.1 hbuild
  obtain ⟨d, hd, rfl⟩ := List.mem_map.1 hn
  have hstep : Step.nonterm true d.name ∈ allSteps merged :=
    List.mem_append_left _ (List.mem_map.2 ⟨d, hd, rfl⟩)
  have hapart := keepsApart_allSteps hidentifier
  obtain ⟨id, hid⟩ := Builder.exists_id_of_mem_nonterm herror hapart hstep
  refine ⟨id, ?_, hid⟩
  rw [(Grammar.wellFormed_of_build hbuild).nonterm?_eq_some_iff, hnonterms]
  exact ((Builder.consistent_run _).nonterm_iff d.name id).1 hid

end Build

theorem compile_eq_ok_iff {start : String} {endOfText : Location} {g : Grammar} :
    compile merged start endOfText = .ok g ↔
      check merged start endOfText = .ok () ∧ Grammar.build (allSteps merged) start = .ok g := by
  unfold compile
  cases check merged start endOfText with
  | error e => simp [bind, Except.bind]
  | ok =>
    simp only [bind, Except.bind, true_and]
    cases Grammar.build (allSteps merged) start with
    | error e => simp [throw, throwThe, MonadExceptOf.throw]
    | ok g' => simp [pure, Except.pure]

end Declaration

theorem Grammar.compile_eq_ok_iff {text : List Char} {start : String} {g : Grammar} :
    compile text start = .ok g ↔
      ∃ declarations, Declaration.ofChars text = .ok declarations ∧
        ∃ merged, Declaration.merge declarations = .ok merged ∧
          Declaration.compile merged start (.endOf text) = .ok g := by
  unfold compile
  cases Declaration.ofChars text with
  | error e => simp [bind, Except.bind]
  | ok declarations =>
    cases hmerge : Declaration.merge declarations <;> simp [bind, Except.bind, hmerge]

/-- The non-terminal of every declared name derives exactly the texts that the name has in the
least solution of the declarations. -/
theorem compile_preserves_language {text : List Char} {start : String} {g : Grammar}
    (h : Grammar.compile text start = .ok g) :
    ∃ declarations, Declaration.ofChars text = .ok declarations ∧
      ∃ L, IsLeast {env | Declaration.reading declarations env = env} L ∧
        ∀ d ∈ declarations, ∃ id, g.nonterm? d.name = some id ∧
          ∀ w, g.Yields [.nonterm id] w ↔ w ∈ L d.name := by
  obtain ⟨declarations, hread, merged, hmerge, hcompile⟩ := Grammar.compile_eq_ok_iff.1 h
  obtain ⟨hcheck, hbuild⟩ := Declaration.compile_eq_ok_iff.1 hcompile
  have hmem (n : String) :
      n ∈ merged.map Declaration.name ↔ n ∈ declarations.map Declaration.name :=
    Declaration.mem_map_name_merge hmerge
  have hidentifier : ∀ d ∈ merged, IsIdentifier d.name := by
    intro d hd
    obtain ⟨d', hd', hname⟩ := List.mem_map.1 ((hmem d.name).1 (List.mem_map_of_mem hd))
    exact hname ▸ isIdentifier_of_ofChars hread d' hd'
  refine ⟨declarations, hread, Declaration.solution merged, ?_, fun d hd => ?_⟩
  · rw [← Declaration.reading_merge hmerge]
    exact Declaration.isLeast_solution merged
  · have hn : d.name ∈ merged.map Declaration.name := (hmem d.name).2 (List.mem_map_of_mem hd)
    obtain ⟨id, hid, hsymbol⟩ := Declaration.exists_nonterm_of_mem hidentifier hbuild hn
    refine ⟨id, hid, fun w => ?_⟩
    rw [Grammar.yields_iff_generates, ← Builder.mem_valuation_of_symbol hsymbol,
      Declaration.valuation_eq_solution hidentifier hbuild (Declaration.nodup_merge hmerge)
        (Declaration.check_eq_ok_iff.1 hcheck).1 hn]

/-! ### Brackets in brackets -/

/-- A rule that refers to itself between brackets in brackets. -/
def nestedText : List Char := "s = \"a\" \x7b [ s ] \"b\" \x7d ;".toList

/-- The tokens of `nestedText`. -/
def nestedLexemes : List Lexeme :=
  [⟨.identifier "s", ⟨0, 1, 1⟩⟩, ⟨.define, ⟨2, 1, 3⟩⟩, ⟨.literal "a", ⟨4, 1, 5⟩⟩,
    ⟨.openBrace, ⟨8, 1, 9⟩⟩, ⟨.openBracket, ⟨10, 1, 11⟩⟩, ⟨.identifier "s", ⟨12, 1, 13⟩⟩,
    ⟨.closeBracket, ⟨14, 1, 15⟩⟩, ⟨.literal "b", ⟨16, 1, 17⟩⟩, ⟨.closeBrace, ⟨20, 1, 21⟩⟩,
    ⟨.semicolon, ⟨22, 1, 23⟩⟩]

/-- The declaration in `nestedText`. -/
def nestedDeclaration : Declaration where
  name := "s"
  location := ⟨0, 1, 1⟩
  body := [[.literal "a",
    .nested .repetition [[.nested .optional [[.reference "s" ⟨12, 1, 13⟩]], .literal "b"]]]]

/-- The steps for `nestedText`. -/
def nestedSteps : List Step :=
  [.nonterm true "s", .terminal true "\"a\"" (.literal ['a']), .nonterm true "s~rep1",
    .nonterm true "s~opt2", .rule true "s~opt2" ["s"], .rule true "s~opt2" [],
    .terminal true "\"b\"" (.literal ['b']), .rule true "s~rep1" ["s~rep1", "s~opt2", "\"b\""],
    .rule true "s~rep1" [], .rule true "s" ["\"a\"", "s~rep1"]]

theorem ofChars_nestedText : Declaration.ofChars nestedText = .ok [nestedDeclaration] := by
  have htokens : tokenize nestedText = .ok nestedLexemes := by decide +kernel
  rw [Declaration.ofChars, htokens]
  rfl

theorem allSteps_nestedDeclaration : Declaration.allSteps [nestedDeclaration] = nestedSteps := by
  decide +kernel

theorem run_nestedSteps :
    (Builder.run nestedSteps).error = none ∧
      (Builder.run nestedSteps).symbols["s"]? = some (.nonterm 0) ∧
      (Builder.run nestedSteps).nonterms = #["s", "s~rep1", "s~opt2"] ∧
      (Builder.run nestedSteps).rules =
        #[⟨2, #[.nonterm 0]⟩, ⟨2, #[]⟩,
          ⟨1, #[.nonterm 1, .nonterm 2, .terminal (.literal ['b'])]⟩, ⟨1, #[]⟩,
          ⟨0, #[.terminal (.literal ['a']), .nonterm 1]⟩] := by
  cbv

theorem exists_compile_nestedText : ∃ g, Grammar.compile nestedText "s" = .ok g := by
  obtain ⟨herror, hstart, hnonterms, hrules⟩ := run_nestedSteps
  have hbuild : ∃ g, Grammar.build (Declaration.allSteps [nestedDeclaration]) "s" = .ok g := by
    rw [allSteps_nestedDeclaration]
    refine ⟨⟨0, _, _, _, _, _⟩, Builder.finish_eq_ok_iff.2
      ⟨herror, hstart, ?_, rfl, rfl, rfl, rfl, rfl⟩⟩
    rw [hrules, hnonterms]
    decide +kernel
  obtain ⟨g, hg⟩ := hbuild
  have hcheck : Declaration.check [nestedDeclaration] "s" (.endOf nestedText) = .ok () :=
    Declaration.check_eq_ok_iff.2 (by decide)
  exact ⟨g, Grammar.compile_eq_ok_iff.2 ⟨_, ofChars_nestedText, _, rfl,
    Declaration.compile_eq_ok_iff.2 ⟨hcheck, hg⟩⟩⟩

theorem compile_preserves_language_nested :
    ∃ g, Grammar.compile nestedText "s" = .ok g ∧
      ∃ declarations, Declaration.ofChars nestedText = .ok declarations ∧
        ∃ L, IsLeast {env | Declaration.reading declarations env = env} L ∧
          ∀ d ∈ declarations, ∃ id, g.nonterm? d.name = some id ∧
            ∀ w, g.Yields [.nonterm id] w ↔ w ∈ L d.name := by
  obtain ⟨g, hg⟩ := exists_compile_nestedText
  exact ⟨g, hg, compile_preserves_language hg⟩

end Earley
