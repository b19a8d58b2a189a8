/-
  The layout of a grammar text does not matter.

  `relocate` moves every place in lexemes, declarations and errors by one function. No stage of a
  compilation looks at a place, so each of them commutes with every such function: reading
  (`Reader.step_relocate`), merging (`absorb_relocate`), and checking and building
  (`compile_relocate`).

  Two texts with the same tokens are one sequence of tokens, each of them placed by its number, that
  was moved in two ways. So both texts give the same grammar, or errors that differ in nothing but
  the place, which is that of the same token or the end of either text (`layout_never_matters`).
-/
import Earley.Proofs.Ebnf.Redeclaration

namespace Earley

variable (f : Location → Location)

/-! ### Moving places -/

/-- A lexeme that stands elsewhere. -/
def Lexeme.relocate (lexeme : Lexeme) : Lexeme := { lexeme with location := f lexeme.location }

/-- A reference that stands elsewhere. -/
def Reference.relocate (reference : Reference) : Reference :=
  { reference with location := f reference.location }

/-- An error at another place. -/
def CompileError.relocate (e : CompileError) : CompileError := { e with location := f e.location }

/-- The outcome of a stage with the places in it moved; `move` moves those in what the stage
gives. -/
def relocated {α : Type} (move : α → α) : Except CompileError α → Except CompileError α
  | .ok x => .ok (move x)
  | .error e => .error (e.relocate f)

theorem relocated_bind {α β : Type} {move : α → α} {move' : β → β}
    {next next' : α → Except CompileError β}
    (h : ∀ x, next' (move x) = relocated f move' (next x)) (result : Except CompileError α) :
    relocated f move result >>= next' = relocated f move' (result >>= next) := by
  cases result with
  | ok x => exact h x
  | error e => rfl

/-- A fold commutes with moving places if each step does. -/
theorem foldlM_map_relocate {α β : Type} {move : α → α} {move' : β → β}
    {step : β → α → Except CompileError β}
    (h : ∀ s x, step (move' s) (move x) = relocated f move' (step s x)) (s : β) (xs : List α) :
    (xs.map move).foldlM step (move' s) = relocated f move' (xs.foldlM step s) := by
  induction xs generalizing s with
  | nil => rfl
  | cons x xs ih =>
    rw [List.map_cons, List.foldlM_cons, List.foldlM_cons, h]
    exact relocated_bind f ih (step s x)

namespace Atom

mutual

/-- An atom with the places of its references moved. -/
def relocate : Atom → Atom
  | .reference name location => .reference name (f location)
  | .literal text => .literal text
  | .range lo hi => .range lo hi
  | .nested bracket body => .nested bracket (relocateAmong body)

/-- A sequence of atoms with the places of all references moved. -/
def relocateIn : List Atom → List Atom
  | [] => []
  | atom :: atoms => atom.relocate :: relocateIn atoms

/-- A list of alternatives with the places of all references moved. -/
def relocateAmong : List (List Atom) → List (List Atom)
  | [] => []
  | alternative :: body => relocateIn alternative :: relocateAmong body

end

theorem relocateIn_eq_map (atoms : List Atom) : relocateIn f atoms = atoms.map (relocate f) := by
  induction atoms with
  | nil => rfl
  | cons atom atoms ih => rw [relocateIn, ih, List.map_cons]

theorem relocateAmong_eq_map (body : List (List Atom)) :
    relocateAmong f body = body.map (relocateIn f) := by
  induction body with
  | nil => rfl
  | cons alternative body ih => rw [relocateAmong, ih, List.map_cons]

mutual

theorem unplaced_relocate (atom : Atom) : (atom.relocate f).unplaced = atom.unplaced := by
  cases atom with
  | reference | literal | range => rfl
  | nested bracket body => rw [relocate, unplaced, unplacedAmong_relocateAmong body, unplaced]

theorem unplacedIn_relocateIn (atoms : List Atom) :
    unplacedIn (relocateIn f atoms) = unplacedIn atoms := by
  cases atoms with
  | nil => rfl
  | cons atom atoms =>
    rw [relocateIn, unplacedIn, unplaced_relocate atom, unplacedIn_relocateIn atoms, unplacedIn]

theorem unplacedAmong_relocateAmong (body : List (List Atom)) :
    unplacedAmong (relocateAmong f body) = unplacedAmong body := by
  cases body with
  | nil => rfl
  | cons alternative body =>
    rw [relocateAmong, unplacedAmong, unplacedIn_relocateIn alternative,
      unplacedAmong_relocateAmong body, unplacedAmong]

end

/-- Whether sequences of atoms are alike does not hang on places. -/
theorem alikeIn_relocateIn (atoms atoms' : List Atom) :
    alikeIn (relocateIn f atoms) (relocateIn f atoms') = alikeIn atoms atoms' := by
  rw [Bool.eq_iff_iff, alikeIn_iff, alikeIn_iff, unplacedIn_relocateIn, unplacedIn_relocateIn]

mutual

theorem references_relocate (after : List Reference) (atom : Atom) :
    (atom.relocate f).references (after.map (.relocate f)) =
      (atom.references after).map (.relocate f) := by
  cases atom with
  | reference | literal | range => rfl
  | nested bracket body => exact referencesAmong_relocateAmong after body

theorem referencesIn_relocateIn (after : List Reference) (atoms : List Atom) :
    referencesIn (after.map (.relocate f)) (relocateIn f atoms) =
      (referencesIn after atoms).map (.relocate f) := by
  cases atoms with
  | nil => rfl
  | cons atom atoms =>
    rw [relocateIn, referencesIn, referencesIn_relocateIn after atoms,
      references_relocate (referencesIn after atoms) atom, referencesIn]

theorem referencesAmong_relocateAmong (after : List Reference) (body : List (List Atom)) :
    referencesAmong (after.map (.relocate f)) (relocateAmong f body) =
      (referencesAmong after body).map (.relocate f) := by
  cases body with
  | nil => rfl
  | cons alternative body =>
    rw [relocateAmong, referencesAmong, referencesAmong_relocateAmong after body,
      referencesIn_relocateIn (referencesAmong after body) alternative, referencesAmong]

end

end Atom

/-- A declaration with its own place and those of its references moved. -/
def Declaration.relocate (d : Declaration) : Declaration where
  name := d.name
  location := f d.location
  body := Atom.relocateAmong f d.body

/-! ### Reading -/

namespace Reader

/-- A level with the places of its references moved. -/
def Level.relocate (level : Level) : Level where
  alternatives := level.alternatives.map (Atom.relocateIn f)
  atoms := level.atoms.map (Atom.relocate f)

theorem Level.bar_relocate (level : Level) : (level.relocate f).bar = level.bar.relocate f := by
  simp [bar, relocate, Atom.relocateIn_eq_map]

theorem Level.close_relocate (level : Level) :
    (level.relocate f).close = Atom.relocateAmong f level.close := by
  rw [close, bar_relocate, relocate, Atom.relocateAmong_eq_map, ← List.map_reverse, close]

/-- A body with the places of its references moved. -/
def Body.relocate (body : Body) : Body where
  level := body.level.relocate f
  enclosing := body.enclosing.map fun entry => (entry.1, entry.2.relocate f)

theorem Body.closer_relocate (body : Body) : (body.relocate f).closer = body.closer := by
  obtain ⟨level, enclosing⟩ := body
  cases enclosing <;> rfl

/-- A held literal that stands elsewhere. -/
def Held.relocate (held : Held) : Held := { held with location := f held.location }

theorem settle_relocate (body : Body) (held : Option Held) :
    settle (body.relocate f) (held.map (Held.relocate f)) = (settle body held).relocate f := by
  cases held <;> rfl

/-- A place of the reader with all places in the text moved. -/
def Place.relocate : Place → Place
  | .outside => .outside
  | .named name location => .named name (f location)
  | .inside name location body held =>
    .inside name (f location) (body.relocate f) (held.map (Held.relocate f))
  | .bounded name location body lower =>
    .bounded name (f location) (body.relocate f) (lower.relocate f)

/-- A reading with all places in it moved. -/
def relocate (r : Reader) : Reader where
  declared := r.declared.map (Declaration.relocate f)
  place := r.place.relocate f

theorem stepInside_relocate (declared : List Declaration) (name : String) (location : Location)
    (body : Body) (lexeme : Lexeme) :
    stepInside (declared.map (Declaration.relocate f)) name (f location) (body.relocate f)
        (lexeme.relocate f) =
      relocated f (relocate f) (stepInside declared name location body lexeme) := by
  obtain ⟨token, l⟩ := lexeme
  have hbar : (body.relocate f).level.bar = body.level.bar.relocate f := Level.bar_relocate f _
  have hclose : (body.relocate f).level.close = Atom.relocateAmong f body.level.close :=
    Level.close_relocate f _
  unfold stepInside
  simp only [Lexeme.relocate, Body.closer_relocate, hbar, hclose]
  split
  case h_7 =>
    split
    · obtain ⟨level, enclosing⟩ := body
      cases enclosing with
      | nil => rfl
      | cons entry enclosing => rfl
    · rfl
  all_goals rfl

theorem ofBounds_relocate (lo hi : String) (location : Location) :
    Atom.ofBounds lo hi (f location) =
      relocated f (Atom.relocate f) (Atom.ofBounds lo hi location) := by
  cases h : Atom.ofBounds lo hi location with
  | ok range =>
    obtain ⟨l, u, hlo, hhi, hle, rfl⟩ := Atom.ofBounds_eq_ok_iff.1 h
    exact Atom.ofBounds_eq_ok_iff.2 ⟨l, u, hlo, hhi, hle, rfl⟩
  | error e =>
    unfold Atom.ofBounds at h ⊢
    split at h
    · split at h
      · cases h
      · next hle =>
        cases h
        rw [if_neg hle]
        rfl
    · cases h
      rfl

/-- A step commutes with moving places. -/
theorem step_relocate (r : Reader) (lexeme : Lexeme) :
    (r.relocate f).step (lexeme.relocate f) = relocated f (relocate f) (r.step lexeme) := by
  obtain ⟨declared, place⟩ := r
  cases place with
  | outside => obtain ⟨token, l⟩ := lexeme; cases token <;> rfl
  | named name location => obtain ⟨token, l⟩ := lexeme; cases token <;> rfl
  | inside name location body held =>
    by_cases hellipsis : lexeme.token = .ellipsis
    · obtain ⟨token, l⟩ := lexeme
      subst hellipsis
      cases held with
      | none => exact stepInside_relocate f declared name location body ⟨.ellipsis, l⟩
      | some held => rfl
    · rw [step_inside hellipsis, ← stepInside_relocate, ← settle_relocate]
      exact step_inside hellipsis
  | bounded name location body lower =>
    obtain ⟨token, l⟩ := lexeme
    cases token with
    | literal upper =>
      have hrange := ofBounds_relocate f lower.text upper lower.location
      simp only [step, relocate, Place.relocate, Lexeme.relocate, Held.relocate, hrange]
      cases Atom.ofBounds lower.text upper lower.location <;> rfl
    | _ => rfl

theorem finish_relocate (r : Reader) (endOfText : Location) :
    (r.relocate f).finish (f endOfText) =
      relocated f (List.map (Declaration.relocate f)) (r.finish endOfText) := by
  obtain ⟨declared, place⟩ := r
  cases place with
  | outside => exact congrArg Except.ok List.map_reverse.symm
  | inside name location body held =>
    have hcloser := Body.closer_relocate f body
    exact congrArg
      (fun closer => Except.error ((Expected.token closer).atEnd (f endOfText))) hcloser
  | named | bounded => rfl

end Reader

namespace Declaration

/-- Reading commutes with moving places. -/
theorem ofLexemes_relocate (lexemes : List Lexeme) (endOfText : Location) :
    ofLexemes (lexemes.map (.relocate f)) (f endOfText) =
      relocated f (List.map (relocate f)) (ofLexemes lexemes endOfText) := by
  have hstart : Reader.start = Reader.start.relocate f := rfl
  rw [ofLexemes, hstart, foldlM_map_relocate f (Reader.step_relocate f)]
  exact relocated_bind f (fun r => Reader.finish_relocate f r endOfText) _

/-! ### Merging -/

theorem name_relocate (d : Declaration) : (d.relocate f).name = d.name := rfl

theorem map_name_map_relocate (ds : List Declaration) :
    (ds.map (relocate f)).map name = ds.map name := by
  rw [List.map_map]
  exact List.map_congr_left fun d _ => name_relocate f d

theorem repeats_relocate (earlier later : Declaration) :
    repeats (earlier.relocate f) (later.relocate f) = repeats earlier later := by
  simp only [repeats, relocate, Atom.relocateAmong_eq_map, List.any_map, Function.comp_def,
    Atom.alikeIn_relocateIn]

theorem earlier?_relocate (merged : List Declaration) (later : Declaration) :
    earlier? (merged.map (relocate f)) (later.relocate f) =
      (earlier? merged later).map (relocate f) := by
  rw [earlier?, List.find?_map]
  rfl

theorem extend_relocate (later d : Declaration) :
    extend (later.relocate f) (d.relocate f) = (extend later d).relocate f := by
  by_cases h : d.name = later.name
  · simp [extend, relocate, h, Atom.relocateAmong_eq_map]
  · rw [extend_of_ne h, extend_of_ne (by rwa [name_relocate, name_relocate])]

/-- To take a declaration in commutes with moving places. -/
theorem absorb_relocate (merged : List Declaration) (later : Declaration) :
    absorb (merged.map (relocate f)) (later.relocate f) =
      relocated f (List.map (relocate f)) (absorb merged later) := by
  have hextend : (merged.map (relocate f)).map (extend (later.relocate f)) =
      (merged.map (extend later)).map (relocate f) := by
    rw [List.map_map, List.map_map]
    exact List.map_congr_left fun d _ => extend_relocate f later d
  rw [absorb, earlier?_relocate]
  unfold absorb
  cases earlier? merged later with
  | none =>
    have hconcat : merged.map (relocate f) ++ [later.relocate f] =
        (merged ++ [later]).map (relocate f) := by simp
    exact congrArg Except.ok hconcat
  | some earlier =>
    simp only [Option.map_some, repeats_relocate]
    split
    · rfl
    · exact congrArg Except.ok hextend

/-- Merging commutes with moving places. -/
theorem merge_relocate (ds : List Declaration) :
    merge (ds.map (relocate f)) = relocated f (List.map (relocate f)) (merge ds) :=
  foldlM_map_relocate f (absorb_relocate f) [] ds

/-! ### Checking and building -/

theorem references_relocate (d : Declaration) :
    (d.relocate f).references = d.references.map (.relocate f) :=
  Atom.referencesAmong_relocateAmong f [] d.body

theorem undefined?_relocate (merged : List Declaration) :
    undefined? (merged.map (relocate f)) = (undefined? merged).map (.relocate f) := by
  have hreferences : (merged.map (relocate f)).flatMap references =
      (merged.flatMap references).map (.relocate f) := by
    rw [List.flatMap_map, List.map_flatMap, funext (references_relocate f)]
  simp only [undefined?, map_name_map_relocate, hreferences, List.find?_map]
  rfl

/-- The checks commute with moving places. -/
theorem check_relocate (merged : List Declaration) (start : String) (endOfText : Location) :
    check (merged.map (relocate f)) start (f endOfText) =
      relocated f id (check merged start endOfText) := by
  have hany : (merged.map (relocate f)).any (fun d => d.name == start) =
      merged.any fun d => d.name == start := List.any_map
  rw [check, undefined?_relocate, hany]
  unfold check
  cases undefined? merged with
  | some reference => rfl
  | none =>
    dsimp only [Option.map_none]
    split <;> rfl

theorem unplaced_relocate (d : Declaration) : (d.relocate f).unplaced = d.unplaced := by
  rw [unplaced, relocate, Atom.unplacedAmong_relocateAmong, unplaced]

/-- The steps do not hang on places. -/
theorem allSteps_relocate (merged : List Declaration) :
    allSteps (merged.map (relocate f)) = allSteps merged := by
  rw [← allSteps_map_unplaced, List.map_map, ← allSteps_map_unplaced merged]
  exact congrArg allSteps (List.map_congr_left fun d _ => unplaced_relocate f d)

/-- Checking and building commute with moving places. -/
theorem compile_relocate (merged : List Declaration) (start : String) (endOfText : Location) :
    compile (merged.map (relocate f)) start (f endOfText) =
      relocated f id (compile merged start endOfText) := by
  rw [compile, check_relocate, allSteps_relocate]
  refine relocated_bind f (fun _ => ?_) _
  cases Grammar.build (allSteps merged) start <;> rfl

end Declaration

/-! ### Compiling -/

/-- The grammar that lexemes give in a text that ends at `endOfText`. -/
def Grammar.compileLexemes (lexemes : List Lexeme) (start : String) (endOfText : Location) :
    Except CompileError Grammar := do
  let declarations ← Declaration.ofLexemes lexemes endOfText
  let merged ← Declaration.merge declarations
  Declaration.compile merged start endOfText

namespace Grammar

variable {text text' : List Char} {lexemes lexemes' : List Lexeme}

/-- A text is compiled from its tokens. -/
theorem compile_eq_compileLexemes (h : tokenize text = .ok lexemes) (start : String) :
    compile text start = compileLexemes lexemes start (.endOf text) := by
  rw [compile, Declaration.ofChars, h]
  rfl

/-- Compiling commutes with moving places. -/
theorem compileLexemes_relocate (lexemes : List Lexeme) (start : String) (endOfText : Location) :
    compileLexemes (lexemes.map (.relocate f)) start (f endOfText) =
      relocated f id (compileLexemes lexemes start endOfText) := by
  rw [compileLexemes, Declaration.ofLexemes_relocate]
  refine relocated_bind f (fun ds => ?_) _
  rw [Declaration.merge_relocate]
  exact relocated_bind f (fun merged => Declaration.compile_relocate f merged start endOfText) _

end Grammar

/-! ### Two layouts -/

namespace Lexeme

/-- The place of the `i`-th token if each token were a character. -/
def numberedPlace (i : Nat) : Location := ⟨i, 1, i + 1⟩

/-- Tokens that are placed by their numbers. -/
def numbered (tokens : List Token) : List Lexeme :=
  tokens.mapIdx fun i token => ⟨token, numberedPlace i⟩

/-- Every sequence of lexemes is one that is placed by numbers, moved. -/
theorem map_relocate_numbered (lexemes : List Lexeme) (endOfText : Location) :
    (numbered (lexemes.map token)).map (relocate fun l => placeOf lexemes endOfText l.offset) =
      lexemes := by
  apply List.ext_getElem?
  intro i
  cases h : lexemes[i]? with
  | none => simp [numbered, h]
  | some lexeme => simp [numbered, numberedPlace, relocate, placeOf, h]

end Lexeme

namespace Grammar

variable {text : List Char} {lexemes : List Lexeme}

/-- What a text is compiled to hangs on its tokens, up to moving places. -/
theorem compile_eq_relocated (h : tokenize text = .ok lexemes) (start : String) :
    compile text start =
      relocated (fun l => Lexeme.placeOf lexemes (.endOf text) l.offset) id
        (compileLexemes (Lexeme.numbered (lexemes.map Lexeme.token)) start
          (Lexeme.numberedPlace lexemes.length)) := by
  have hend : Lexeme.placeOf lexemes (.endOf text) lexemes.length = .endOf text := by
    simp [Lexeme.placeOf]
  rw [← compileLexemes_relocate, Lexeme.map_relocate_numbered, compile_eq_compileLexemes h]
  exact congrArg (compileLexemes lexemes start) hend.symm

end Grammar

/-- **Layout does not matter.** Two texts with the same tokens, wherever these stand, give the same
grammar for every start symbol, or both give an error of the same kind and wording. The errors are
then at the same token in either text, or both at the end. -/
theorem layout_never_matters {text text' : List Char} {lexemes lexemes' : List Lexeme}
    (h : tokenize text = .ok lexemes) (h' : tokenize text' = .ok lexemes')
    (htokens : lexemes.map Lexeme.token = lexemes'.map Lexeme.token) (start : String) :
    (∃ g, Grammar.compile text start = .ok g ∧ Grammar.compile text' start = .ok g) ∨
      ∃ e e', Grammar.compile text start = .error e ∧ Grammar.compile text' start = .error e' ∧
        e.fault = e'.fault ∧ e.message = e'.message ∧
        ∃ i, e.location = Lexeme.placeOf lexemes (.endOf text) i ∧
          e'.location = Lexeme.placeOf lexemes' (.endOf text') i := by
  have hlength : lexemes.length = lexemes'.length := by simpa using congrArg List.length htokens
  rw [Grammar.compile_eq_relocated h, Grammar.compile_eq_relocated h', ← htokens, ← hlength]
  cases Grammar.compileLexemes (Lexeme.numbered (lexemes.map Lexeme.token)) start
      (Lexeme.numberedPlace lexemes.length) with
  | ok g => exact Or.inl ⟨g, rfl, rfl⟩
  | error e => exact Or.inr ⟨_, _, rfl, rfl, rfl, rfl, e.location.offset, rfl, rfl⟩

/-- The tokens of `repeatingText` in another layout: other spellings of the defining sign, other
blanks, and comments. -/
def looseText : List Char := "s::=[s];#\n(* s = *)s:= |\n [\ts ];".toList

/-- The tokens of `looseText`. -/
def looseLexemes : List Lexeme :=
  [⟨.identifier "s", ⟨0, 1, 1⟩⟩, ⟨.define, ⟨1, 1, 2⟩⟩, ⟨.openBracket, ⟨4, 1, 5⟩⟩,
    ⟨.identifier "s", ⟨5, 1, 6⟩⟩, ⟨.closeBracket, ⟨6, 1, 7⟩⟩, ⟨.semicolon, ⟨7, 1, 8⟩⟩,
    ⟨.identifier "s", ⟨19, 2, 10⟩⟩, ⟨.define, ⟨20, 2, 11⟩⟩, ⟨.bar, ⟨23, 2, 14⟩⟩,
    ⟨.openBracket, ⟨26, 3, 2⟩⟩, ⟨.identifier "s", ⟨28, 3, 4⟩⟩, ⟨.closeBracket, ⟨30, 3, 6⟩⟩,
    ⟨.semicolon, ⟨31, 3, 7⟩⟩]

theorem layout_never_matters_loose :
    ∃ e e', Grammar.compile repeatingText "s" = .error e ∧
      Grammar.compile looseText "s" = .error e' ∧ e.fault = .duplicateRule ∧
      e'.fault = .duplicateRule ∧ e.message = e'.message ∧
      ∃ i, e.location = Lexeme.placeOf repeatingLexemes (.endOf repeatingText) i ∧
        e'.location = Lexeme.placeOf looseLexemes (.endOf looseText) i := by
  have htokens : tokenize repeatingText = .ok repeatingLexemes := by decide +kernel
  have htokens' : tokenize looseText = .ok looseLexemes := by decide +kernel
  have hmerge : Declaration.merge repeatingDeclarations =
      .error (Declaration.repeated ⟨"s", ⟨12, 1, 13⟩, _⟩) := rfl
  have hcompile : Grammar.compile repeatingText "s" = _ :=
    Grammar.compile_of_merge_error ofChars_repeatingText hmerge
  rcases layout_never_matters htokens htokens' (by decide) "s" with
    ⟨g, hg, -⟩ | ⟨e, e', he, he', hfault, hmessage, hplace⟩
  · cases hg.symm.trans hcompile
  · cases he.symm.trans hcompile
    exact ⟨_, e', hcompile, he', rfl, hfault.symm, hmessage, hplace⟩

end Earley
