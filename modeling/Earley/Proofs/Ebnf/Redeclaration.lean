/-
  To declare a name again is to write its alternatives together.

  Merging gives one declaration for each name, in the place of its first one, with all alternatives
  of the name (`merge_eq_joined`). A text that declares each name once is merged already, so a text
  that is spelled like the joined declarations of another gives the same grammar
  (`redeclaring_joins`). Where merging fails, it does so at the first declaration that repeats an
  alternative.
-/
import Earley.Proofs.Ebnf.Outcome
import Earley.Proofs.Ebnf.Unplaced

namespace Earley

namespace Declaration

variable {ds merged : List Declaration} {later : Declaration} {n : String}

/-! ### The first declarations -/

/-- The first declaration of each name, in the order of the text. -/
def firsts : List Declaration → List Declaration
  | [] => []
  | d :: ds => d :: (firsts ds).filter (·.name ≠ d.name)

/-- One more declaration is a first one if its name is new. -/
theorem firsts_concat (ds : List Declaration) (later : Declaration) :
    firsts (ds ++ [later]) =
      firsts ds ++ if later.name ∈ ds.map name then [] else [later] := by
  induction ds with
  | nil => rfl
  | cons d ds ih =>
    have hlast : (if later.name ∈ ds.map name then [] else [later]).filter (·.name ≠ d.name) =
        if later.name ∈ (d :: ds).map name then [] else [later] := by
      simp only [List.map_cons, List.mem_cons]
      by_cases hd : later.name = d.name
      · rw [if_pos (Or.inl hd)]
        split <;> simp [hd]
      · simp only [hd, false_or]
        split <;> simp [hd]
    rw [List.cons_append, firsts, firsts, ih, List.filter_append, hlast, List.cons_append]

theorem firsts_eq_self (h : (ds.map name).Nodup) : firsts ds = ds := by
  induction ds with
  | nil => rfl
  | cons d ds ih =>
    rw [List.map_cons, List.nodup_cons] at h
    rw [firsts, ih h.2, List.filter_eq_self.2]
    intro d' hd'
    have hne : d'.name ≠ d.name := fun heq => h.1 (heq ▸ List.mem_map_of_mem hd')
    simpa using hne

/-! ### Joined declarations -/

/-- The declarations with one for each name: in the place of its first one stands one with the
alternatives of all. -/
def joined (ds : List Declaration) : List Declaration :=
  (firsts ds).map fun d => { d with body := alternativesOf ds d.name }

/-- One more declaration adds its alternatives to the one of its name, or stands behind all. -/
theorem joined_concat (ds : List Declaration) (later : Declaration) :
    joined (ds ++ [later]) =
      (joined ds).map (extend later) ++ if later.name ∈ ds.map name then [] else [later] := by
  have hold (d : Declaration) :
      ({ d with body := alternativesOf (ds ++ [later]) d.name } : Declaration) =
        extend later { d with body := alternativesOf ds d.name } := by
    rw [alternativesOf_append, alternativesOf_cons, alternativesOf_nil, extend]
    by_cases h : d.name = later.name
    · simp [h]
    · simp [h, Ne.symm h]
  rw [joined, firsts_concat, List.map_append, joined, List.map_map]
  congr 1
  · exact List.map_congr_left fun d _ => hold d
  · split
    · rfl
    · next hnew =>
      -- The name had no alternatives before.
      rw [List.map_singleton, alternativesOf_append, alternativesOf_eq_nil hnew,
        alternativesOf_cons, if_pos rfl, alternativesOf_nil, List.append_nil, List.nil_append]

theorem joined_eq_self (h : (ds.map name).Nodup) : joined ds = ds := by
  rw [joined, firsts_eq_self h]
  refine (List.map_congr_left fun d hd => ?_).trans (List.map_id ds)
  rw [alternativesOf_eq_body h hd, id]

/-- Where merging does not fail, it joins the declarations of each name. -/
theorem merge_eq_joined (h : merge ds = .ok merged) : merged = joined ds := by
  induction ds using List.reverseRecOn generalizing merged with
  | nil =>
    cases h
    rfl
  | append_singleton ds later ih =>
    obtain ⟨next, hnext, hlater⟩ := foldlM_append_eq_ok_iff.1 h
    have habsorb : absorb next later = .ok merged := by simpa using hlater
    have hnames : later.name ∈ next.map name ↔ later.name ∈ ds.map name :=
      mem_map_name_merge hnext
    rw [joined_concat, ← ih hnext]
    rcases absorb_cases habsorb with ⟨hnew, rfl⟩ | ⟨hold, rfl⟩
    · rw [map_extend_eq_self hnew, if_neg (by rwa [← hnames])]
    · rw [if_pos (hnames.1 hold), List.append_nil]

/-- Declarations with distinct names are merged already. -/
theorem merge_eq_self (h : (ds.map name).Nodup) : merge ds = .ok ds := by
  cases hmerge : merge ds with
  | ok merged => rw [merge_eq_joined hmerge, joined_eq_self h]
  | error e =>
    obtain ⟨before, later, after, rfl, ⟨earlier, hearlier, hname, -⟩⟩ :=
      exists_merge_eq_error_iff.1 ⟨e, hmerge⟩
    rw [List.map_append, List.nodup_append] at h
    have hne := h.2.2 _ (List.mem_map_of_mem hearlier) later.name (by simp)
    exact absurd hname hne

/-! ### The first repetition -/

/-- Merging fails at the first declaration that repeats an alternative. -/
theorem merge_eq_error_iff_first {e : CompileError} :
    merge ds = .error e ↔
      ∃ before later after, ds = before ++ later :: after ∧ ¬HasRepetition before ∧
        IsRepetition before later ∧ e = repeated later := by
  have hmerged (before : List Declaration) :
      (∃ merged, merge before = .ok merged) ↔ ¬HasRepetition before := by
    rw [← exists_merge_eq_error_iff]
    cases merge before <;> simp
  simp only [merge_eq_error_iff, hmerged]

/-! ### Declarations in a text -/

variable {text : List Char} {lexemes : List Lexeme}

/-- The name of a declaration is the token behind those of the declarations before. -/
theorem getElem?_of_ofLexemes {endOfText : Location} {before after : List Declaration}
    (h : ofLexemes lexemes endOfText = .ok (before ++ later :: after)) :
    lexemes[(before.flatMap written).length]? = some ⟨.identifier later.name, later.location⟩ := by
  obtain ⟨-, hwritten⟩ := ofLexemes_eq_ok_iff.1 h
  have hbare : (lexemes.map Lexeme.bare)[(before.flatMap written).length]? =
      some ⟨.identifier later.name, later.location⟩ := by
    rw [hwritten, List.flatMap_append, List.flatMap_cons, written]
    simp
  rw [List.getElem?_map, Option.map_eq_some_iff] at hbare
  obtain ⟨lexeme, hlexeme, hidentifier⟩ := hbare
  rw [hlexeme, Lexeme.bare_eq_identifier_iff.1 hidentifier]

/-- A text with the tokens of some declarations has these declarations, up to places. -/
theorem exists_ofChars_of_map_token_eq (hds : ∀ d ∈ ds, d.Writable)
    (htext : tokenize text = .ok lexemes)
    (htokens : lexemes.map Lexeme.token = (ds.flatMap written).map Lexeme.token) :
    ∃ ds', ofChars text = .ok ds' ∧ ds'.map unplaced = ds.map unplaced := by
  have hforms : Forms BoundsRange .declarations (lexemes.map Lexeme.token) := by
    rw [htokens]
    exact forms_flatMap_written hds
  obtain ⟨ds', hds', hwritten⟩ := forms_declarations_iff.1 hforms
  refine ⟨ds', ofChars_eq_ok_iff.2 ⟨lexemes, htext, ofLexemes_eq_ok_iff.2 ⟨hds', hwritten⟩⟩, ?_⟩
  apply map_unplaced_eq hds' hds
  rw [← hwritten, Lexeme.map_token_map_bare, htokens]

end Declaration

namespace Grammar

open Declaration

variable {text text' : List Char} {lexemes' : List Lexeme} {ds : List Declaration}
  {start : String} {g : Grammar}

/-- A text that is spelled like the joined declarations of another gives the same grammar. -/
theorem compile_of_joined (h : ofChars text = .ok ds) (hcompile : compile text start = .ok g)
    (htext' : tokenize text' = .ok lexemes')
    (htokens : lexemes'.map Lexeme.token = ((joined ds).flatMap written).map Lexeme.token) :
    compile text' start = .ok g := by
  obtain ⟨ds₁, hread, merged, hmerge, hmerged⟩ := compile_eq_ok_iff.1 hcompile
  obtain rfl : ds₁ = ds := Except.ok.inj (hread.symm.trans h)
  obtain rfl := merge_eq_joined hmerge
  have hwritable := writable_merge hmerge (writable_of_ofChars h)
  obtain ⟨ds', hds', hunplaced⟩ := exists_ofChars_of_map_token_eq hwritable htext' htokens
  -- The other text declares each name once, so merging does nothing to it.
  have hnodup : (ds'.map Declaration.name).Nodup := by
    rw [map_name_eq_of_map_unplaced_eq hunplaced]
    exact nodup_merge hmerge
  exact compile_eq_ok_iff.2 ⟨ds', hds', ds', merge_eq_self hnodup,
    (compile_eq_ok_iff_of_map_unplaced_eq hunplaced).2 hmerged⟩

end Grammar

open Declaration in
/-- **Declaring again is joining.** If a text gives a grammar, every text that declares each name
once, in the place of its first declaration and with the alternatives of all of them joined by bars,
gives the same grammar. Merging fails with a repeated alternative just if a declaration has an
alternative that, up to places, an earlier one of its name has, too; the error is then at the name
of the first such declaration. -/
theorem redeclaring_joins {text : List Char} {ds : List Declaration} (h : ofChars text = .ok ds)
    (start : String) :
    (∀ g, Grammar.compile text start = .ok g → ∀ text' lexemes', tokenize text' = .ok lexemes' →
      lexemes'.map Lexeme.token = ((joined ds).flatMap written).map Lexeme.token →
        Grammar.compile text' start = .ok g) ∧
    ((∃ e, merge ds = .error e ∧ e.fault = .duplicateRule) ↔ HasRepetition ds) ∧
    ∀ e, merge ds = .error e → Grammar.compile text start = .error e ∧ e.fault = .duplicateRule ∧
      ∃ lexemes before later after, tokenize text = .ok lexemes ∧ ds = before ++ later :: after ∧
        ¬HasRepetition before ∧ IsRepetition before later ∧
        lexemes[(before.flatMap written).length]? =
          some ⟨.identifier later.name, e.location⟩ := by
  have hfault (e : CompileError) (he : merge ds = .error e) : e.fault = .duplicateRule := by
    obtain ⟨-, later, -, -, -, -, rfl⟩ := merge_eq_error_iff_first.1 he
    rfl
  refine ⟨fun g hg text' lexemes' htext' htokens => ?_, ?_, fun e he => ?_⟩
  · exact Grammar.compile_of_joined h hg htext' htokens
  · rw [← exists_merge_eq_error_iff]
    exact exists_congr fun e => and_iff_left_of_imp (hfault e)
  · refine ⟨Grammar.compile_of_merge_error h he, hfault e he, ?_⟩
    obtain ⟨before, later, after, rfl, hfirst, hrepetition, rfl⟩ := merge_eq_error_iff_first.1 he
    obtain ⟨lexemes, htext, hlexemes⟩ := ofChars_eq_ok_iff.1 h
    exact ⟨lexemes, before, later, after, htext, rfl, hfirst, hrepetition,
      getElem?_of_ofLexemes hlexemes⟩

/-! ### Rules that take turns -/

/-- A text in which another rule stands between the declarations of a name. -/
def interleavedText : List Char := "s = t ; t = ; s = [ s ] ;".toList

/-- The tokens of `interleavedText`. -/
def interleavedLexemes : List Lexeme :=
  [⟨.identifier "s", ⟨0, 1, 1⟩⟩, ⟨.define, ⟨2, 1, 3⟩⟩, ⟨.identifier "t", ⟨4, 1, 5⟩⟩,
    ⟨.semicolon, ⟨6, 1, 7⟩⟩, ⟨.identifier "t", ⟨8, 1, 9⟩⟩, ⟨.define, ⟨10, 1, 11⟩⟩,
    ⟨.semicolon, ⟨12, 1, 13⟩⟩, ⟨.identifier "s", ⟨14, 1, 15⟩⟩, ⟨.define, ⟨16, 1, 17⟩⟩,
    ⟨.openBracket, ⟨18, 1, 19⟩⟩, ⟨.identifier "s", ⟨20, 1, 21⟩⟩, ⟨.closeBracket, ⟨22, 1, 23⟩⟩,
    ⟨.semicolon, ⟨24, 1, 25⟩⟩]

/-- The declarations in `interleavedText`. -/
def interleavedDeclarations : List Declaration :=
  [⟨"s", ⟨0, 1, 1⟩, [[.reference "t" ⟨4, 1, 5⟩]]⟩, ⟨"t", ⟨8, 1, 9⟩, [[]]⟩,
    ⟨"s", ⟨14, 1, 15⟩, [[.nested .optional [[.reference "s" ⟨20, 1, 21⟩]]]]⟩]

/-- The text that declares each name of `interleavedText` once. -/
def joinedText : List Char := "s = t | [ s ] ; t = ;".toList

/-- A text in which a declaration repeats, at another place, an alternative of an earlier one. -/
def repeatingText : List Char := "s = [ s ] ; s = | [ s ] ;".toList

/-- The tokens of `repeatingText`. -/
def repeatingLexemes : List Lexeme :=
  [⟨.identifier "s", ⟨0, 1, 1⟩⟩, ⟨.define, ⟨2, 1, 3⟩⟩, ⟨.openBracket, ⟨4, 1, 5⟩⟩,
    ⟨.identifier "s", ⟨6, 1, 7⟩⟩, ⟨.closeBracket, ⟨8, 1, 9⟩⟩, ⟨.semicolon, ⟨10, 1, 11⟩⟩,
    ⟨.identifier "s", ⟨12, 1, 13⟩⟩, ⟨.define, ⟨14, 1, 15⟩⟩, ⟨.bar, ⟨16, 1, 17⟩⟩,
    ⟨.openBracket, ⟨18, 1, 19⟩⟩, ⟨.identifier "s", ⟨20, 1, 21⟩⟩, ⟨.closeBracket, ⟨22, 1, 23⟩⟩,
    ⟨.semicolon, ⟨24, 1, 25⟩⟩]

/-- The declarations in `repeatingText`. -/
def repeatingDeclarations : List Declaration :=
  [⟨"s", ⟨0, 1, 1⟩, [[.nested .optional [[.reference "s" ⟨6, 1, 7⟩]]]]⟩,
    ⟨"s", ⟨12, 1, 13⟩, [[], [.nested .optional [[.reference "s" ⟨20, 1, 21⟩]]]]⟩]

theorem ofChars_interleavedText :
    Declaration.ofChars interleavedText = .ok interleavedDeclarations := by
  have htokens : tokenize interleavedText = .ok interleavedLexemes := by decide +kernel
  rw [Declaration.ofChars, htokens]
  rfl

theorem ofChars_repeatingText :
    Declaration.ofChars repeatingText = .ok repeatingDeclarations := by
  have htokens : tokenize repeatingText = .ok repeatingLexemes := by decide +kernel
  rw [Declaration.ofChars, htokens]
  rfl

theorem exists_tokenize_joinedText :
    ∃ lexemes, tokenize joinedText = .ok lexemes ∧ lexemes.map Lexeme.token =
      ((Declaration.joined interleavedDeclarations).flatMap Declaration.written).map
        Lexeme.token := by
  have hmap : (tokenize joinedText).map (·.map Lexeme.token) =
      .ok (((Declaration.joined interleavedDeclarations).flatMap Declaration.written).map
        Lexeme.token) := by
    decide +kernel
  cases htext : tokenize joinedText with
  | error e =>
    rw [htext] at hmap
    cases hmap
  | ok lexemes =>
    rw [htext] at hmap
    exact ⟨lexemes, rfl, Except.ok.inj hmap⟩

theorem exists_compile_interleavedText : ∃ g, Grammar.compile interleavedText "s" = .ok g := by
  have hmerge : Declaration.merge interleavedDeclarations =
      .ok (Declaration.joined interleavedDeclarations) := rfl
  have hcheck : Declaration.check (Declaration.joined interleavedDeclarations) "s"
      (.endOf interleavedText) = .ok () :=
    Declaration.check_eq_ok_iff.2 (by decide)
  exact Grammar.exists_compile_of_check ofChars_interleavedText hmerge hcheck

theorem redeclaring_joins_interleaved :
    (∃ g, Grammar.compile interleavedText "s" = .ok g ∧ Grammar.compile joinedText "s" = .ok g) ∧
      Declaration.HasRepetition repeatingDeclarations ∧
      ∃ e, Grammar.compile repeatingText "s" = .error e ∧ e.fault = .duplicateRule ∧
        e.location = ⟨12, 1, 13⟩ := by
  obtain ⟨g, hg⟩ := exists_compile_interleavedText
  obtain ⟨hjoined, -, -⟩ := redeclaring_joins ofChars_interleavedText "s"
  obtain ⟨lexemes, htext, htokens⟩ := exists_tokenize_joinedText
  obtain ⟨-, hrepetition, hfirst⟩ := redeclaring_joins ofChars_repeatingText "s"
  have hmerge : Declaration.merge repeatingDeclarations =
      .error (Declaration.repeated ⟨"s", ⟨12, 1, 13⟩, _⟩) := rfl
  obtain ⟨hcompile, hfault, -⟩ := hfirst _ hmerge
  exact ⟨⟨g, hg, hjoined g hg _ lexemes htext htokens⟩, hrepetition.1 ⟨_, hmerge, hfault⟩, _,
    hcompile, hfault, rfl⟩

end Earley
