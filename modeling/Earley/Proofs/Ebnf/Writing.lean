/-
  Declarations written as tokens, and the token sequences that form declarations.

  `Declaration.written` writes a declaration by the rules in `Earley.Ebnf.Reader`. Each identifier
  has the place that the declaration gives it; declarations know no other places, so all other
  tokens are written at the origin, and `Lexeme.bare` forgets where they stand. What can be written
  so that it can be read again is `Writable`: brackets and bodies have at least one alternative, and
  ranges are in order.

  `Forms` states the rules themselves, as rules on token sequences. The sequences that form
  declarations are those that writable declarations are written as (`forms_declarations_iff`).
-/
import Earley.Ebnf.TokenStream
import Earley.Proofs.Ebnf.Places

namespace Earley

/-- The token that opens a bracket. -/
def Bracket.opener : Bracket → Token
  | optional => .openBracket
  | repetition => .openBrace
  | group => .openParen

namespace Lexeme

/-- A token without a place of its own. -/
def unplaced (token : Token) : Lexeme := ⟨token, .origin⟩

/-- What declarations keep of a lexeme: the token, and of an identifier also the place. -/
def bare (lexeme : Lexeme) : Lexeme :=
  match lexeme.token with
  | .identifier _ => lexeme
  | token => unplaced token

theorem token_bare (lexeme : Lexeme) : lexeme.bare.token = lexeme.token := by
  unfold bare
  split
  · rfl
  · rfl

/-- An identifier is kept as it is. -/
theorem bare_eq_identifier_iff {lexeme : Lexeme} {name : String} {location : Location} :
    lexeme.bare = ⟨.identifier name, location⟩ ↔ lexeme = ⟨.identifier name, location⟩ := by
  constructor
  · intro h
    have htoken : lexeme.token = .identifier name := by rw [← token_bare, h]
    rwa [bare, htoken] at h
  · rintro rfl
    rfl

/-- Of any other lexeme only the token is kept. -/
theorem token_eq_of_bare {lexeme : Lexeme} {token : Token} (h : lexeme.bare = unplaced token) :
    lexeme.token = token := by
  rw [← token_bare, h]
  rfl

theorem bare_unplaced (token : Token) : bare (unplaced token) = unplaced token := by
  cases token <;> rfl

theorem bare_opener (bracket : Bracket) (location : Location) :
    bare ⟨bracket.opener, location⟩ = unplaced bracket.opener := by
  cases bracket <;> rfl

theorem bare_closer (bracket : Bracket) (location : Location) :
    bare ⟨bracket.closer, location⟩ = unplaced bracket.closer := by
  cases bracket <;> rfl

theorem map_token_map_bare (lexemes : List Lexeme) :
    (lexemes.map bare).map token = lexemes.map token := by
  rw [List.map_map]
  exact List.map_congr_left fun lexeme _ => token_bare lexeme

end Lexeme

/-! ### Writing -/

namespace Atom

mutual

/-- The tokens of an atom. -/
def written : Atom → List Lexeme
  | .reference name location => [⟨.identifier name, location⟩]
  | .literal text => [.unplaced (.literal text)]
  | .range lo hi =>
    [.unplaced (.literal (String.singleton lo)), .unplaced .ellipsis,
      .unplaced (.literal (String.singleton hi))]
  | .nested bracket body =>
    .unplaced bracket.opener :: (writtenAmong body ++ [.unplaced bracket.closer])

/-- The tokens of a sequence of atoms. -/
def writtenIn : List Atom → List Lexeme
  | [] => []
  | atom :: atoms => atom.written ++ writtenIn atoms

/-- The tokens of a list of alternatives, with bars between them. -/
def writtenAmong : List (List Atom) → List Lexeme
  | [] => []
  | alternative :: body => writtenIn alternative ++ writtenBars body

/-- The tokens of alternatives behind another one, with a bar in front of each. -/
def writtenBars : List (List Atom) → List Lexeme
  | [] => []
  | alternative :: body => .unplaced .bar :: (writtenIn alternative ++ writtenBars body)

end

theorem writtenIn_eq_flatMap (atoms : List Atom) : writtenIn atoms = atoms.flatMap written := by
  induction atoms with
  | nil => rfl
  | cons atom atoms ih => rw [writtenIn, ih, List.flatMap_cons]

theorem writtenBars_eq_flatMap (body : List (List Atom)) :
    writtenBars body =
      body.flatMap fun alternative => .unplaced .bar :: writtenIn alternative := by
  induction body with
  | nil => rfl
  | cons alternative body ih => rw [writtenBars, ih, List.flatMap_cons, List.cons_append]

theorem writtenIn_append (atoms atoms' : List Atom) :
    writtenIn (atoms ++ atoms') = writtenIn atoms ++ writtenIn atoms' := by
  simp only [writtenIn_eq_flatMap, List.flatMap_append]

theorem writtenIn_singleton (atom : Atom) : writtenIn [atom] = atom.written := by
  rw [writtenIn, writtenIn, List.append_nil]

theorem writtenBars_append (body body' : List (List Atom)) :
    writtenBars (body ++ body') = writtenBars body ++ writtenBars body' := by
  simp only [writtenBars_eq_flatMap, List.flatMap_append]

/-- What is written of an atom is written of the alternatives that it stands in. -/
theorem mem_writtenAmong {lexeme : Lexeme} {atom : Atom} {alternative : List Atom}
    {body : List (List Atom)} (halternative : alternative ∈ body) (hatom : atom ∈ alternative)
    (h : lexeme ∈ atom.written) : lexeme ∈ writtenAmong body := by
  have hin : lexeme ∈ writtenIn alternative := by
    rw [writtenIn_eq_flatMap]
    exact List.mem_flatMap.2 ⟨atom, hatom, h⟩
  cases body with
  | nil => cases halternative
  | cons first body =>
    rw [writtenAmong, writtenBars_eq_flatMap, List.mem_append]
    rcases List.mem_cons.1 halternative with rfl | halternative
    · exact Or.inl hin
    · exact Or.inr (List.mem_flatMap.2 ⟨alternative, halternative, List.mem_cons_of_mem _ hin⟩)

/-- A reference is written as an identifier at its place. -/
theorem mem_written_of_mentions {atom : Atom} {reference : Reference}
    (h : atom.Mentions reference) :
    ⟨.identifier reference.name, reference.location⟩ ∈ atom.written := by
  induction h with
  | reference name location => exact List.mem_singleton_self _
  | nested bracket halternative hatom _ ih =>
    rw [written]
    exact List.mem_cons_of_mem _
      (List.mem_append_left _ (mem_writtenAmong halternative hatom ih))

/-- One more alternative is empty at first. -/
theorem writtenAmong_concat_nil {body : List (List Atom)} (h : body ≠ []) :
    writtenAmong (body ++ [[]]) = writtenAmong body ++ [.unplaced .bar] := by
  cases body with
  | nil => exact absurd rfl h
  | cons alternative body =>
    rw [List.cons_append, writtenAmong, writtenAmong, writtenBars_append, List.append_assoc]
    rfl

/-- One more atom goes behind the others of the last alternative. -/
theorem writtenAmong_concat_concat (body : List (List Atom)) (atoms : List Atom) (atom : Atom) :
    writtenAmong (body ++ [atoms ++ [atom]]) = writtenAmong (body ++ [atoms]) ++ atom.written := by
  cases body with
  | nil =>
    simp only [List.nil_append, writtenAmong, writtenBars, List.append_nil, writtenIn_append,
      writtenIn_singleton]
  | cons alternative body =>
    simp only [List.cons_append, writtenAmong, writtenBars_append, writtenBars, List.append_nil,
      writtenIn_append, writtenIn_singleton, List.append_assoc]

/-- Tells that an atom can be written so that it can be read again: brackets hold at least one
alternative, and ranges are in order. -/
inductive Writable : Atom → Prop
  | reference (name : String) (location : Location) : Writable (.reference name location)
  | literal (text : String) : Writable (.literal text)
  | range {lo hi : Char} (h : lo ≤ hi) : Writable (.range lo hi)
  | nested (bracket : Bracket) {body : List (List Atom)} (hne : body ≠ [])
      (h : ∀ alternative ∈ body, ∀ atom ∈ alternative, Writable atom) :
      Writable (.nested bracket body)

end Atom

namespace Declaration

/-- The tokens of a declaration. -/
def written (d : Declaration) : List Lexeme :=
  ⟨.identifier d.name, d.location⟩ :: .unplaced .define ::
    (Atom.writtenAmong d.body ++ [.unplaced .semicolon])

/-- The name of a declaration is written as an identifier at its place. -/
theorem mem_written_name (d : Declaration) : ⟨.identifier d.name, d.location⟩ ∈ d.written :=
  List.mem_cons_self

/-- A reference of a declaration is written as an identifier at its place. -/
theorem mem_written_of_mem_references {d : Declaration} {reference : Reference}
    (h : reference ∈ d.references) :
    ⟨.identifier reference.name, reference.location⟩ ∈ d.written := by
  obtain ⟨alternative, halternative, atom, hatom, hmentions⟩ := mem_references_iff.1 h
  have hbody : ⟨.identifier reference.name, reference.location⟩ ∈ Atom.writtenAmong d.body :=
    Atom.mem_writtenAmong halternative hatom (Atom.mem_written_of_mentions hmentions)
  exact List.mem_cons_of_mem _ (List.mem_cons_of_mem _ (List.mem_append_left _ hbody))

/-- Tells that a declaration can be written so that it can be read again. -/
structure Writable (d : Declaration) : Prop where
  ne_nil : d.body ≠ []
  atom : ∀ alternative ∈ d.body, ∀ atom ∈ alternative, atom.Writable

end Declaration

/-! ### Writing without places -/

namespace Atom

mutual

theorem written_unplaced (atom : Atom) :
    atom.unplaced.written = atom.written.map (.unplaced ·.token) := by
  cases atom with
  | reference | literal | range => rfl
  | nested bracket body =>
    rw [unplaced, written, written, writtenAmong_unplacedAmong body]
    simp [Lexeme.unplaced]

theorem writtenIn_unplacedIn (atoms : List Atom) :
    writtenIn (unplacedIn atoms) = (writtenIn atoms).map (.unplaced ·.token) := by
  cases atoms with
  | nil => rfl
  | cons atom atoms =>
    rw [unplacedIn, writtenIn, writtenIn, written_unplaced atom, writtenIn_unplacedIn atoms,
      List.map_append]

theorem writtenAmong_unplacedAmong (body : List (List Atom)) :
    writtenAmong (unplacedAmong body) = (writtenAmong body).map (.unplaced ·.token) := by
  cases body with
  | nil => rfl
  | cons alternative body =>
    rw [unplacedAmong, writtenAmong, writtenAmong, writtenIn_unplacedIn alternative,
      writtenBars_unplacedAmong body, List.map_append]

theorem writtenBars_unplacedAmong (body : List (List Atom)) :
    writtenBars (unplacedAmong body) = (writtenBars body).map (.unplaced ·.token) := by
  cases body with
  | nil => rfl
  | cons alternative body =>
    rw [unplacedAmong, writtenBars, writtenBars, writtenIn_unplacedIn alternative,
      writtenBars_unplacedAmong body, List.map_cons, List.map_append]
    rfl

end

theorem Writable.unplaced {atom : Atom} (h : atom.Writable) : atom.unplaced.Writable := by
  induction h with
  | reference name location => exact .reference name .origin
  | literal text => exact .literal text
  | range h => exact .range h
  | nested bracket hne _ ih =>
    rw [Atom.unplaced, unplacedAmong_eq_map]
    refine .nested bracket (by simpa using hne) ?_
    simp only [List.forall_mem_map, unplacedIn_eq_map]
    exact ih

end Atom

namespace Declaration

theorem written_unplaced (d : Declaration) :
    d.unplaced.written = d.written.map (.unplaced ·.token) := by
  rw [written, written, unplaced, Atom.writtenAmong_unplacedAmong]
  simp [Lexeme.unplaced]

theorem flatMap_written_map_unplaced (ds : List Declaration) :
    (ds.map unplaced).flatMap written =
      ((ds.flatMap written).map Lexeme.token).map Lexeme.unplaced := by
  induction ds with
  | nil => rfl
  | cons d ds ih => simp [written_unplaced, ih]

theorem Writable.unplaced {d : Declaration} (h : d.Writable) : d.unplaced.Writable where
  ne_nil := by
    rw [Declaration.unplaced, Atom.unplacedAmong_eq_map]
    simpa using h.ne_nil
  atom := by
    simp only [Declaration.unplaced, Atom.unplacedAmong_eq_map, Atom.unplacedIn_eq_map,
      List.forall_mem_map]
    exact fun alternative halternative atom hatom =>
      (h.atom alternative halternative atom hatom).unplaced

end Declaration

/-! ### Forming declarations -/

/-- The kinds of phrases in a grammar text. -/
inductive Phrase
  | atom
  | sequence
  | alternatives
  | declaration
  | declarations

/-- Tells that tokens form a phrase, where a range may have only bounds as in `bounds`. -/
inductive Forms (bounds : String → String → Prop) : Phrase → List Token → Prop
  | reference (name : String) : Forms bounds .atom [.identifier name]
  | literal (text : String) : Forms bounds .atom [.literal text]
  | range {lo hi : String} (h : bounds lo hi) :
      Forms bounds .atom [.literal lo, .ellipsis, .literal hi]
  | nested (bracket : Bracket) {tokens : List Token} (h : Forms bounds .alternatives tokens) :
      Forms bounds .atom (bracket.opener :: (tokens ++ [bracket.closer]))
  | empty : Forms bounds .sequence []
  | next {first rest : List Token} (hfirst : Forms bounds .atom first)
      (hrest : Forms bounds .sequence rest) : Forms bounds .sequence (first ++ rest)
  | single {tokens : List Token} (h : Forms bounds .sequence tokens) :
      Forms bounds .alternatives tokens
  | bar {first rest : List Token} (hfirst : Forms bounds .sequence first)
      (hrest : Forms bounds .alternatives rest) : Forms bounds .alternatives (first ++ .bar :: rest)
  | declaration (name : String) {tokens : List Token} (h : Forms bounds .alternatives tokens) :
      Forms bounds .declaration (.identifier name :: .define :: (tokens ++ [.semicolon]))
  | done : Forms bounds .declarations []
  | another {first rest : List Token} (hfirst : Forms bounds .declaration first)
      (hrest : Forms bounds .declarations rest) : Forms bounds .declarations (first ++ rest)

/-- Tells that two literals bound a range: they are single characters in order. -/
def BoundsRange (lo hi : String) : Prop :=
  ∃ l h : Char, lo = String.singleton l ∧ hi = String.singleton h ∧ l ≤ h

/-- Tells that lexemes are a phrase that is written, as far as their places are kept. -/
def Phrase.IsWriting : Phrase → List Lexeme → Prop
  | .atom, lexemes => ∃ atom : Atom, atom.Writable ∧ lexemes.map Lexeme.bare = atom.written
  | .sequence, lexemes =>
    ∃ atoms : List Atom, (∀ atom ∈ atoms, atom.Writable) ∧
      lexemes.map Lexeme.bare = Atom.writtenIn atoms
  | .alternatives, lexemes =>
    ∃ body : List (List Atom), body ≠ [] ∧
      (∀ alternative ∈ body, ∀ atom ∈ alternative, atom.Writable) ∧
      lexemes.map Lexeme.bare = Atom.writtenAmong body
  | .declaration, lexemes =>
    ∃ d : Declaration, d.Writable ∧ lexemes.map Lexeme.bare = d.written
  | .declarations, lexemes =>
    ∃ ds : List Declaration, (∀ d ∈ ds, d.Writable) ∧
      lexemes.map Lexeme.bare = ds.flatMap Declaration.written

/-- Tokens that follow the rules are the writing of something, wherever they stand. -/
theorem Forms.isWriting {phrase : Phrase} {tokens : List Token}
    (h : Forms BoundsRange phrase tokens) {lexemes : List Lexeme}
    (hlexemes : lexemes.map Lexeme.token = tokens) : phrase.IsWriting lexemes := by
  induction h generalizing lexemes with
  | reference name =>
    obtain ⟨⟨token, l⟩, rfl, rfl⟩ := List.map_eq_singleton_iff.1 hlexemes
    exact ⟨.reference name l, .reference name l, rfl⟩
  | literal text =>
    obtain ⟨⟨token, l⟩, rfl, rfl⟩ := List.map_eq_singleton_iff.1 hlexemes
    exact ⟨.literal text, .literal text, rfl⟩
  | range hbounds =>
    obtain ⟨lo, hi, rfl, rfl, hle⟩ := hbounds
    obtain ⟨⟨first, l⟩, rest, rfl, rfl, hrest⟩ := List.map_eq_cons_iff.1 hlexemes
    obtain ⟨⟨second, l'⟩, rest', rfl, rfl, hrest'⟩ := List.map_eq_cons_iff.1 hrest
    obtain ⟨⟨third, l''⟩, rfl, rfl⟩ := List.map_eq_singleton_iff.1 hrest'
    exact ⟨.range lo hi, .range hle, rfl⟩
  | nested bracket _ ih =>
    obtain ⟨⟨first, l⟩, rest, rfl, rfl, hrest⟩ := List.map_eq_cons_iff.1 hlexemes
    obtain ⟨inner, last, rfl, hinner, hlast⟩ := List.map_eq_append_iff.1 hrest
    obtain ⟨⟨token, l'⟩, rfl, rfl⟩ := List.map_eq_singleton_iff.1 hlast
    obtain ⟨body, hne, hbody, hwritten⟩ := ih hinner
    refine ⟨.nested bracket body, .nested bracket hne hbody, ?_⟩
    simp [Atom.written, hwritten, Lexeme.bare_opener, Lexeme.bare_closer]
  | empty =>
    obtain rfl := List.map_eq_nil_iff.1 hlexemes
    exact ⟨[], by simp, rfl⟩
  | next _ _ ihfirst ihrest =>
    obtain ⟨first, rest, rfl, hfirst, hrest⟩ := List.map_eq_append_iff.1 hlexemes
    obtain ⟨atom, hatom, hwritten⟩ := ihfirst hfirst
    obtain ⟨atoms, hatoms, hwritten'⟩ := ihrest hrest
    refine ⟨atom :: atoms, List.forall_mem_cons.2 ⟨hatom, hatoms⟩, ?_⟩
    rw [List.map_append, hwritten, hwritten', Atom.writtenIn]
  | single _ ih =>
    obtain ⟨atoms, hatoms, hwritten⟩ := ih hlexemes
    refine ⟨[atoms], List.cons_ne_nil _ _, by simpa using hatoms, ?_⟩
    rw [hwritten, Atom.writtenAmong, Atom.writtenBars, List.append_nil]
  | bar _ _ ihfirst ihrest =>
    obtain ⟨first, rest, rfl, hfirst, hrest⟩ := List.map_eq_append_iff.1 hlexemes
    obtain ⟨⟨token, l⟩, rest', rfl, rfl, hrest'⟩ := List.map_eq_cons_iff.1 hrest
    obtain ⟨atoms, hatoms, hwritten⟩ := ihfirst hfirst
    obtain ⟨body, hne, hbody, hwritten'⟩ := ihrest hrest'
    refine ⟨atoms :: body, List.cons_ne_nil _ _, List.forall_mem_cons.2 ⟨hatoms, hbody⟩, ?_⟩
    -- The bar stands in front of the first alternative of the rest.
    cases body with
    | nil => exact absurd rfl hne
    | cons alternative body =>
      rw [List.map_append, List.map_cons, hwritten, hwritten', Atom.writtenAmong,
        Atom.writtenAmong, Atom.writtenBars]
      rfl
  | declaration name _ ih =>
    obtain ⟨⟨first, l⟩, rest, rfl, rfl, hrest⟩ := List.map_eq_cons_iff.1 hlexemes
    obtain ⟨⟨second, l'⟩, rest', rfl, rfl, hrest'⟩ := List.map_eq_cons_iff.1 hrest
    obtain ⟨inner, last, rfl, hinner, hlast⟩ := List.map_eq_append_iff.1 hrest'
    obtain ⟨⟨third, l''⟩, rfl, rfl⟩ := List.map_eq_singleton_iff.1 hlast
    obtain ⟨body, hne, hbody, hwritten⟩ := ih hinner
    refine ⟨⟨name, l, body⟩, ⟨hne, hbody⟩, ?_⟩
    simp [Declaration.written, hwritten, Lexeme.bare]
  | done =>
    obtain rfl := List.map_eq_nil_iff.1 hlexemes
    exact ⟨[], by simp, rfl⟩
  | another _ _ ihfirst ihrest =>
    obtain ⟨first, rest, rfl, hfirst, hrest⟩ := List.map_eq_append_iff.1 hlexemes
    obtain ⟨d, hd, hwritten⟩ := ihfirst hfirst
    obtain ⟨ds, hds, hwritten'⟩ := ihrest hrest
    refine ⟨d :: ds, List.forall_mem_cons.2 ⟨hd, hds⟩, ?_⟩
    rw [List.map_append, hwritten, hwritten', List.flatMap_cons]

namespace Atom

mutual

/-- What is written follows the rules. -/
theorem forms_written (atom : Atom) (h : atom.Writable) :
    Forms BoundsRange .atom (atom.written.map Lexeme.token) := by
  cases h with
  | reference name => exact .reference name
  | literal text => exact .literal text
  | range hle => exact .range ⟨_, _, rfl, rfl, hle⟩
  | nested bracket hne hbody =>
    rw [written, List.map_cons, List.map_append]
    exact .nested bracket (forms_writtenAmong _ hne hbody)

theorem forms_writtenIn (atoms : List Atom) (h : ∀ atom ∈ atoms, atom.Writable) :
    Forms BoundsRange .sequence ((writtenIn atoms).map Lexeme.token) := by
  cases atoms with
  | nil => exact .empty
  | cons atom atoms =>
    obtain ⟨hfirst, hrest⟩ := List.forall_mem_cons.1 h
    rw [writtenIn, List.map_append]
    exact .next (forms_written atom hfirst) (forms_writtenIn atoms hrest)

theorem forms_writtenAmong (body : List (List Atom)) (hne : body ≠ [])
    (h : ∀ alternative ∈ body, ∀ atom ∈ alternative, atom.Writable) :
    Forms BoundsRange .alternatives ((writtenAmong body).map Lexeme.token) := by
  cases body with
  | nil => exact absurd rfl hne
  | cons alternative body =>
    obtain ⟨hfirst, hrest⟩ := List.forall_mem_cons.1 h
    have hforms := forms_writtenIn alternative hfirst
    cases body with
    | nil =>
      rw [writtenAmong, writtenBars, List.append_nil]
      exact .single hforms
    | cons next body =>
      have hbody := forms_writtenAmong (next :: body) (List.cons_ne_nil _ _) hrest
      rw [writtenAmong, writtenBars, List.map_append, List.map_cons]
      rw [writtenAmong] at hbody
      exact .bar hforms hbody

end

end Atom

theorem Declaration.forms_written {d : Declaration} (h : d.Writable) :
    Forms BoundsRange .declaration (d.written.map Lexeme.token) := by
  rw [written, List.map_cons, List.map_cons, List.map_append]
  exact .declaration d.name (Atom.forms_writtenAmong d.body h.ne_nil h.atom)

theorem Declaration.forms_flatMap_written {ds : List Declaration} (h : ∀ d ∈ ds, d.Writable) :
    Forms BoundsRange .declarations ((ds.flatMap written).map Lexeme.token) := by
  induction ds with
  | nil => exact .done
  | cons d ds ih =>
    obtain ⟨hfirst, hrest⟩ := List.forall_mem_cons.1 h
    rw [List.flatMap_cons, List.map_append]
    exact .another (forms_written hfirst) (ih hrest)

/-- The token sequences that follow the rules are those of writable declarations. -/
theorem forms_declarations_iff {lexemes : List Lexeme} :
    Forms BoundsRange .declarations (lexemes.map Lexeme.token) ↔
      ∃ ds : List Declaration, (∀ d ∈ ds, d.Writable) ∧
        lexemes.map Lexeme.bare = ds.flatMap Declaration.written := by
  constructor
  · exact fun h => h.isWriting rfl
  · rintro ⟨ds, hds, hwritten⟩
    rw [← Lexeme.map_token_map_bare, hwritten]
    exact Declaration.forms_flatMap_written hds

end Earley
