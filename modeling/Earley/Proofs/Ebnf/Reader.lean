/-
  Reading inverts writing.

  `Reader.Moves` says once what a token does to a reading. Backwards, what has been read so far can
  be written again (`Reader.written`): a move adds its token to the writing, so whatever is accepted
  is the writing of what is returned. Forwards, a body that is being read has taken in a literal
  even while it is held back (`Reader.Stands`): the tokens of an atom add the atom to the body, by
  induction on the atom, so every writing is accepted and gives back what was written.

  Both together are `reading_inverts_writing`. A token that is not accepted is an error at that
  token, or at the lower bound of the range that it completes (`step_error`).
-/
import Earley.Ebnf.Reader
import Earley.Proofs.Ebnf.Writing

namespace Earley

/-! ### Ranges -/

theorem toList_eq_singleton_iff {s : String} {c : Char} :
    s.toList = [c] ↔ s = String.singleton c := by
  constructor
  · intro h
    apply String.toList_injective
    rw [h, String.toList_singleton]
  · rintro rfl
    exact String.toList_singleton c

namespace Atom

variable {lo hi : String} {location : Location}

/-- Two literals form a range if they are single characters in order. -/
theorem ofBounds_eq_ok_iff {atom : Atom} :
    ofBounds lo hi location = .ok atom ↔
      ∃ l h : Char, lo = String.singleton l ∧ hi = String.singleton h ∧ l ≤ h ∧
        atom = .range l h := by
  simp only [← toList_eq_singleton_iff]
  constructor
  · intro h
    unfold ofBounds at h
    split at h
    · next l u hlo hhi =>
      split at h
      · next hle =>
        cases h
        exact ⟨l, u, hlo, hhi, hle, rfl⟩
      · cases h
    · cases h
  · rintro ⟨l, u, hlo, hhi, hle, rfl⟩
    simp [ofBounds, hlo, hhi, hle]

/-- Bounds that form no range are an error of syntax at the lower one. -/
theorem ofBounds_error {e : CompileError} (h : ofBounds lo hi location = .error e) :
    e.fault = .syntaxError ∧ e.location = location := by
  unfold ofBounds at h
  split at h
  · split at h
    · cases h
    · cases h
      exact ⟨rfl, rfl⟩
  · cases h
    exact ⟨rfl, rfl⟩

end Atom

namespace Reader

/-! ### One token -/

/-- What a token does to a reading. -/
inductive Moves : Reader → Lexeme → Reader → Prop
  | name {declared : List Declaration} {name : String} {location : Location} :
      Moves ⟨declared, .outside⟩ ⟨.identifier name, location⟩ ⟨declared, .named name location⟩
  | define {declared : List Declaration} {name : String} {location l : Location} :
      Moves ⟨declared, .named name location⟩ ⟨.define, l⟩
        ⟨declared, .inside name location ⟨.empty, []⟩ none⟩
  | reference {declared : List Declaration} {name referent : String} {location l : Location}
      {body : Body} {held : Option Held} :
      Moves ⟨declared, .inside name location body held⟩ ⟨.identifier referent, l⟩
        ⟨declared, .inside name location ((settle body held).push (.reference referent l)) none⟩
  | literal {declared : List Declaration} {name text : String} {location l : Location}
      {body : Body} {held : Option Held} :
      Moves ⟨declared, .inside name location body held⟩ ⟨.literal text, l⟩
        ⟨declared, .inside name location (settle body held) (some ⟨text, l⟩)⟩
  | ellipsis {declared : List Declaration} {name : String} {location l : Location} {body : Body}
      {lower : Held} :
      Moves ⟨declared, .inside name location body (some lower)⟩ ⟨.ellipsis, l⟩
        ⟨declared, .bounded name location body lower⟩
  | bound {declared : List Declaration} {name upper : String} {location l : Location} {body : Body}
      {lower : Held} {range : Atom}
      (h : Atom.ofBounds lower.text upper lower.location = .ok range) :
      Moves ⟨declared, .bounded name location body lower⟩ ⟨.literal upper, l⟩
        ⟨declared, .inside name location (body.push range) none⟩
  | bar {declared : List Declaration} {name : String} {location l : Location} {level : Level}
      {enclosing : List (Bracket × Level)} {body : Body} {held : Option Held}
      (h : settle body held = ⟨level, enclosing⟩) :
      Moves ⟨declared, .inside name location body held⟩ ⟨.bar, l⟩
        ⟨declared, .inside name location ⟨level.bar, enclosing⟩ none⟩
  | enter (bracket : Bracket) {declared : List Declaration} {name : String} {location l : Location}
      {body : Body} {held : Option Held} :
      Moves ⟨declared, .inside name location body held⟩ ⟨bracket.opener, l⟩
        ⟨declared, .inside name location ((settle body held).enter bracket) none⟩
  | leave {declared : List Declaration} {name : String} {location l : Location}
      {level outer : Level} {bracket : Bracket} {enclosing : List (Bracket × Level)} {body : Body}
      {held : Option Held}
      (h : settle body held = ⟨level, (bracket, outer) :: enclosing⟩) :
      Moves ⟨declared, .inside name location body held⟩ ⟨bracket.closer, l⟩
        ⟨declared, .inside name location ⟨outer.push (.nested bracket level.close), enclosing⟩ none⟩
  | semicolon {declared : List Declaration} {name : String} {location l : Location} {level : Level}
      {body : Body} {held : Option Held} (h : settle body held = ⟨level, []⟩) :
      Moves ⟨declared, .inside name location body held⟩ ⟨.semicolon, l⟩
        ⟨⟨name, location, level.close⟩ :: declared, .outside⟩

variable {r r' : Reader} {lexeme : Lexeme} {declared : List Declaration} {name : String}
  {location : Location} {body : Body} {held : Option Held}

/-- Behind a literal only the dots of a range do not settle it. -/
theorem step_inside (h : lexeme.token ≠ .ellipsis) :
    step ⟨declared, .inside name location body held⟩ lexeme =
      stepInside declared name location (settle body held) lexeme := by
  obtain ⟨token, l⟩ := lexeme
  cases held <;> cases token <;> first | rfl | exact absurd rfl h

theorem moves_of_stepInside
    (h : stepInside declared name location (settle body held) lexeme = .ok r') :
    Moves ⟨declared, .inside name location body held⟩ lexeme r' := by
  obtain ⟨token, l⟩ := lexeme
  unfold stepInside at h
  split at h <;> dsimp only at *
  case h_7 =>
    -- Any other token has to be the one that closes what is open.
    split at h
    · next hcloser =>
      split at h
      · next henclosing =>
        cases h
        simp only [Body.closer, henclosing] at hcloser
        subst hcloser
        have hbody : settle body held = ⟨(settle body held).level, []⟩ := by rw [← henclosing]
        exact .semicolon hbody
      · next bracket outer enclosing henclosing =>
        cases h
        simp only [Body.closer, henclosing] at hcloser
        subst hcloser
        have hbody : settle body held =
            ⟨(settle body held).level, (bracket, outer) :: enclosing⟩ := by rw [← henclosing]
        exact .leave hbody
    · cases h
  all_goals
    cases h
    subst_vars
  case h_1 => exact .reference
  case h_2 => exact .literal
  case h_3 => exact .enter .optional
  case h_4 => exact .enter .repetition
  case h_5 => exact .enter .group
  case h_6 => exact .bar rfl

theorem moves_of_step (h : r.step lexeme = .ok r') : Moves r lexeme r' := by
  obtain ⟨declared, place⟩ := r
  obtain ⟨token, l⟩ := lexeme
  unfold step at h
  split at h <;> dsimp only at *
  case h_2 | h_4 | h_8 => cases h
  case h_6 =>
    subst_vars
    exact moves_of_stepInside h
  case h_7 =>
    split at h
    · cases h
    · next hrange =>
      cases h
      subst_vars
      exact .bound hrange
  all_goals
    cases h
    subst_vars
  case h_1 => exact .name
  case h_3 => exact .define
  case h_5 => exact .ellipsis

/-- A token is accepted if there is a move for it. -/
theorem step_eq_ok_iff : r.step lexeme = .ok r' ↔ Moves r lexeme r' := by
  refine ⟨moves_of_step, fun h => ?_⟩
  cases h with
  | name | define | ellipsis => rfl
  | bound hrange => simp [step, hrange]
  | reference | literal =>
    rw [step_inside Token.noConfusion]
    rfl
  | enter bracket => cases bracket <;> exact step_inside Token.noConfusion
  | bar hbody =>
    rw [step_inside Token.noConfusion, hbody]
    rfl
  | @leave _ _ _ _ _ _ bracket _ _ _ hbody =>
    cases bracket <;> exact (step_inside Token.noConfusion).trans (by rw [hbody]; rfl)
  | semicolon hbody =>
    rw [step_inside Token.noConfusion, hbody]
    rfl

/-! ### Many tokens -/

/-- Tells that a reading accepts tokens one after another, and where it is then. -/
def Run (r : Reader) (lexemes : List Lexeme) (r' : Reader) : Prop :=
  lexemes.foldlM step r = .ok r'

theorem run_nil_iff : Run r [] r' ↔ r = r' := by
  simp [Run, pure, Except.pure]

theorem run_cons_iff {lexemes : List Lexeme} :
    Run r (lexeme :: lexemes) r' ↔ ∃ next, Moves r lexeme next ∧ Run next lexemes r' := by
  simp only [Run, List.foldlM_cons, ← step_eq_ok_iff]
  cases r.step lexeme <;> simp [bind, Except.bind]

theorem Moves.run (h : Moves r lexeme r') : Run r [lexeme] r' :=
  run_cons_iff.2 ⟨r', h, run_nil_iff.2 rfl⟩

theorem run_append_iff {lexemes lexemes' : List Lexeme} :
    Run r (lexemes ++ lexemes') r' ↔ ∃ next, Run r lexemes next ∧ Run next lexemes' r' := by
  rw [Run, List.foldlM_append]
  simp only [Run]
  cases lexemes.foldlM step r <;> simp [bind, Except.bind]

theorem Run.append {next : Reader} {lexemes lexemes' : List Lexeme} (h : Run r lexemes next)
    (h' : Run next lexemes' r') : Run r (lexemes ++ lexemes') r' :=
  run_append_iff.2 ⟨next, h, h'⟩

/-! ### What has been read can be written -/

namespace Level

variable {level : Level} {atom : Atom}

theorem close_eq (level : Level) :
    level.close = level.alternatives.reverse ++ [level.atoms.reverse] := by
  rw [close, bar, List.reverse_cons]

theorem close_ne_nil (level : Level) : level.close ≠ [] := by
  rw [close_eq]
  exact List.append_ne_nil_of_right_ne_nil _ (List.cons_ne_nil _ _)

theorem close_push (level : Level) (atom : Atom) :
    (level.push atom).close = level.alternatives.reverse ++ [level.atoms.reverse ++ [atom]] := by
  rw [close_eq, push, List.reverse_cons]

theorem close_bar (level : Level) : level.bar.close = level.close ++ [[]] := by
  rw [close_eq, close, bar]
  rfl

/-- The tokens of what has been read of a level. -/
def written (level : Level) : List Lexeme := Atom.writtenAmong level.close

theorem written_push (level : Level) (atom : Atom) :
    (level.push atom).written = level.written ++ atom.written := by
  rw [written, close_push, Atom.writtenAmong_concat_concat, written, close_eq]

theorem written_bar (level : Level) : level.bar.written = level.written ++ [.unplaced .bar] := by
  rw [written, close_bar, Atom.writtenAmong_concat_nil level.close_ne_nil, written]

/-- Tells that what has been read of a level is writable. -/
def Writable (level : Level) : Prop :=
  ∀ alternative ∈ level.close, ∀ atom ∈ alternative, atom.Writable

theorem writable_empty : empty.Writable := by
  simp [Writable, close_eq, empty]

theorem Writable.push (h : level.Writable) (hatom : atom.Writable) :
    (level.push atom).Writable := by
  rw [Writable, close_eq] at h
  rw [Writable, close_push]
  simp only [List.forall_mem_append, List.forall_mem_singleton] at h ⊢
  exact ⟨h.1, h.2, hatom⟩

theorem Writable.bar (h : level.Writable) : level.bar.Writable := by
  rw [Writable, close_bar, List.forall_mem_append]
  exact ⟨h, by simp⟩

end Level

namespace Body

variable {body : Body} {atom : Atom} {level outer : Level} {bracket : Bracket}
  {enclosing : List (Bracket × Level)}

/-- The tokens of what has been read of a body: the levels from outside in, with the brackets
that opened between them. -/
def written (body : Body) : List Lexeme :=
  body.enclosing.reverse.flatMap (fun entry => entry.2.written ++ [.unplaced entry.1.opener]) ++
    body.level.written

theorem written_push (body : Body) (atom : Atom) :
    (body.push atom).written = body.written ++ atom.written := by
  rw [written, push, Level.written_push, ← List.append_assoc, written]

theorem written_bar (level : Level) (enclosing : List (Bracket × Level)) :
    written ⟨level.bar, enclosing⟩ = written ⟨level, enclosing⟩ ++ [.unplaced .bar] := by
  rw [written, written, Level.written_bar, List.append_assoc]

theorem written_enter (body : Body) (bracket : Bracket) :
    (body.enter bracket).written = body.written ++ [.unplaced bracket.opener] := by
  have hempty : Level.empty.written = [] := rfl
  simp [written, enter, hempty]

/-- A bracket that is left has become an atom of the level outside. -/
theorem written_leave (level outer : Level) (bracket : Bracket)
    (enclosing : List (Bracket × Level)) :
    written ⟨outer.push (.nested bracket level.close), enclosing⟩ =
      written ⟨level, (bracket, outer) :: enclosing⟩ ++ [.unplaced bracket.closer] := by
  have hlevel : Atom.writtenAmong level.close = level.written := rfl
  simp [written, Level.written_push, Atom.written, hlevel]

/-- Tells that what has been read of a body is writable. -/
def Writable (body : Body) : Prop :=
  body.level.Writable ∧ ∀ entry ∈ body.enclosing, entry.2.Writable

theorem Writable.push (h : body.Writable) (hatom : atom.Writable) : (body.push atom).Writable :=
  ⟨h.1.push hatom, h.2⟩

theorem Writable.settle (h : body.Writable) (held : Option Held) : (settle body held).Writable := by
  cases held with
  | none => exact h
  | some held => exact h.push (.literal held.text)

theorem Writable.enter (h : body.Writable) (bracket : Bracket) : (body.enter bracket).Writable :=
  ⟨Level.writable_empty, List.forall_mem_cons.2 h⟩

theorem Writable.leave (h : Writable ⟨level, (bracket, outer) :: enclosing⟩) :
    Writable ⟨outer.push (.nested bracket level.close), enclosing⟩ := by
  obtain ⟨hlevel, henclosing⟩ := h
  obtain ⟨houter, hrest⟩ := List.forall_mem_cons.1 henclosing
  exact ⟨houter.push (.nested bracket level.close_ne_nil hlevel), hrest⟩

end Body

/-- The tokens of a declaration that is being read. -/
def Place.written : Place → List Lexeme
  | .outside => []
  | .named name location => [⟨.identifier name, location⟩]
  | .inside name location body held =>
    ⟨.identifier name, location⟩ :: .unplaced .define :: (settle body held).written
  | .bounded name location body lower =>
    ⟨.identifier name, location⟩ :: .unplaced .define ::
      (body.written ++ [.unplaced (.literal lower.text), .unplaced .ellipsis])

/-- The tokens of what has been read. -/
def written (r : Reader) : List Lexeme :=
  r.declared.reverse.flatMap Declaration.written ++ r.place.written

theorem written_inside {body' : Body} {held' : Option Held} {lexemes : List Lexeme}
    (h : (settle body' held').written = (settle body held).written ++ lexemes) :
    written ⟨declared, .inside name location body' held'⟩ =
      written ⟨declared, .inside name location body held⟩ ++ lexemes := by
  simp [written, Place.written, h]

/-- Every move adds its token to the writing. -/
theorem Moves.written_eq (h : Moves r lexeme r') : r'.written = r.written ++ [lexeme.bare] := by
  have hheld (body : Body) (held : Held) :
      (settle body (some held)).written = body.written ++ [.unplaced (.literal held.text)] :=
    body.written_push (.literal held.text)
  cases h with
  | name => simp [written, Place.written, Lexeme.bare]
  | define =>
    have hempty : Body.written ⟨.empty, []⟩ = [] := rfl
    simp [written, Place.written, settle, hempty, Lexeme.bare]
  | reference => exact written_inside (Body.written_push ..)
  | literal => exact written_inside (hheld ..)
  | ellipsis => simp [written, Place.written, hheld, Lexeme.bare]
  | bound hrange =>
    obtain ⟨l, u, hlo, rfl, -, rfl⟩ := Atom.ofBounds_eq_ok_iff.1 hrange
    simp [written, Place.written, settle, Body.written_push, Atom.written, hlo, Lexeme.bare]
  | bar hbody =>
    refine written_inside ?_
    rw [hbody]
    exact Body.written_bar ..
  | enter bracket => cases bracket <;> exact written_inside (Body.written_enter ..)
  | @leave _ _ _ _ level outer bracket _ _ _ hbody =>
    refine written_inside ?_
    rw [hbody, settle, Body.written_leave]
    cases bracket <;> rfl
  | semicolon hbody =>
    simp [written, Place.written, hbody, Declaration.written, Body.written, Level.written,
      Lexeme.bare]

/-- Tells that what has been read is writable. -/
def Writable (r : Reader) : Prop :=
  (∀ d ∈ r.declared, d.Writable) ∧
    match r.place with
    | .outside | .named _ _ => True
    | .inside _ _ body _ | .bounded _ _ body _ => body.Writable

theorem Moves.writable (h : Moves r lexeme r') (hr : r.Writable) : r'.Writable := by
  obtain ⟨hdeclared, hplace⟩ := hr
  cases h with
  | name => exact ⟨hdeclared, trivial⟩
  | define => exact ⟨hdeclared, Level.writable_empty, by simp⟩
  | reference => exact ⟨hdeclared, (hplace.settle _).push (.reference _ _)⟩
  | literal => exact ⟨hdeclared, hplace.settle _⟩
  | ellipsis => exact ⟨hdeclared, hplace⟩
  | bound hrange =>
    obtain ⟨l, u, -, -, hle, rfl⟩ := Atom.ofBounds_eq_ok_iff.1 hrange
    exact ⟨hdeclared, hplace.push (.range hle)⟩
  | @bar _ _ _ _ _ _ _ held hbody =>
    have hsettled := hplace.settle held
    rw [hbody] at hsettled
    exact ⟨hdeclared, hsettled.1.bar, hsettled.2⟩
  | enter bracket => exact ⟨hdeclared, (hplace.settle _).enter bracket⟩
  | @leave _ _ _ _ _ _ _ _ _ held hbody =>
    have hsettled := hplace.settle held
    rw [hbody] at hsettled
    exact ⟨hdeclared, hsettled.leave⟩
  | @semicolon _ _ _ _ level _ held hbody =>
    have hsettled := hplace.settle held
    rw [hbody] at hsettled
    exact ⟨List.forall_mem_cons.2 ⟨⟨level.close_ne_nil, hsettled.1⟩, hdeclared⟩, trivial⟩

/-- A run adds its tokens to the writing, and what it reads is writable. -/
theorem Run.written_eq {lexemes : List Lexeme} (h : Run r lexemes r') (hr : r.Writable) :
    r'.Writable ∧ r'.written = r.written ++ lexemes.map Lexeme.bare := by
  induction lexemes generalizing r with
  | nil =>
    obtain rfl := run_nil_iff.1 h
    exact ⟨hr, by simp⟩
  | cons lexeme lexemes ih =>
    obtain ⟨next, hmoves, hrest⟩ := run_cons_iff.1 h
    obtain ⟨hwritable, hwritten⟩ := ih hrest (hmoves.writable hr)
    refine ⟨hwritable, ?_⟩
    rw [hwritten, hmoves.written_eq, List.append_assoc, List.map_cons]
    rfl

/-! ### What is written can be read -/

/-- Tells that a reading is in a declaration and, with the literal that is held, has read `body` of
it. -/
def Stands (r : Reader) (declared : List Declaration) (name : String) (location : Location)
    (body : Body) : Prop :=
  ∃ body' held, settle body' held = body ∧ r = ⟨declared, .inside name location body' held⟩

theorem Stands.settled : Stands ⟨declared, .inside name location body none⟩ declared name location
    body := ⟨body, none, rfl, rfl⟩

/-- Tells that tokens which are kept as in `written` turn a body that is being read into
`body'`. -/
def Reads (written : List Lexeme) (body body' : Body) : Prop :=
  ∀ lexemes, lexemes.map Lexeme.bare = written → ∀ declared name location r,
    Stands r declared name location body →
      ∃ r', Run r lexemes r' ∧ Stands r' declared name location body'

namespace Reads

variable {w w' : List Lexeme} {body' body'' : Body}

theorem nil (body : Body) : Reads [] body body := by
  intro lexemes h declared name location r hr
  obtain rfl := List.map_eq_nil_iff.1 h
  exact ⟨r, run_nil_iff.2 rfl, hr⟩

theorem append (h : Reads w body body') (h' : Reads w' body' body'') :
    Reads (w ++ w') body body'' := by
  intro lexemes hlexemes declared name location r hr
  obtain ⟨first, rest, rfl, hfirst, hrest⟩ := List.map_eq_append_iff.1 hlexemes
  obtain ⟨next, hrun, hnext⟩ := h first hfirst declared name location r hr
  obtain ⟨r', hrun', hr'⟩ := h' rest hrest declared name location next hnext
  exact ⟨r', hrun.append hrun', hr'⟩

/-- A token is read by a move from each place where the body has been read. -/
theorem single {token : Lexeme}
    (h : ∀ lexeme : Lexeme, lexeme.bare = token → ∀ declared name location body₀ held,
      settle body₀ held = body →
        ∃ r', Moves ⟨declared, .inside name location body₀ held⟩ lexeme r' ∧
          Stands r' declared name location body') :
    Reads [token] body body' := by
  intro lexemes hlexemes declared name location r hr
  obtain ⟨lexeme, rfl, hlexeme⟩ := List.map_eq_singleton_iff.1 hlexemes
  obtain ⟨body₀, held, hbody, rfl⟩ := hr
  obtain ⟨r', hmoves, hr'⟩ := h lexeme hlexeme declared name location body₀ held hbody
  exact ⟨r', hmoves.run, hr'⟩

theorem bar (level : Level) (enclosing : List (Bracket × Level)) :
    Reads [.unplaced .bar] ⟨level, enclosing⟩ ⟨level.bar, enclosing⟩ := by
  refine single fun lexeme hlexeme declared name location body₀ held hbody => ?_
  obtain ⟨token, l⟩ := lexeme
  obtain rfl : token = .bar := Lexeme.token_eq_of_bare hlexeme
  exact ⟨_, .bar hbody, .settled⟩

theorem enter (body : Body) (bracket : Bracket) :
    Reads [.unplaced bracket.opener] body (body.enter bracket) := by
  refine single fun lexeme hlexeme declared name location body₀ held hbody => ?_
  obtain ⟨token, l⟩ := lexeme
  obtain rfl : token = bracket.opener := Lexeme.token_eq_of_bare hlexeme
  obtain rfl := hbody
  exact ⟨_, .enter bracket, .settled⟩

theorem leave (level outer : Level) (bracket : Bracket) (enclosing : List (Bracket × Level)) :
    Reads [.unplaced bracket.closer] ⟨level, (bracket, outer) :: enclosing⟩
      ⟨outer.push (.nested bracket level.close), enclosing⟩ := by
  refine single fun lexeme hlexeme declared name location body₀ held hbody => ?_
  obtain ⟨token, l⟩ := lexeme
  obtain rfl : token = bracket.closer := Lexeme.token_eq_of_bare hlexeme
  exact ⟨_, .leave hbody, .settled⟩

theorem reference (body : Body) (referent : String) (l : Location) :
    Reads [⟨.identifier referent, l⟩] body (body.push (.reference referent l)) := by
  refine single fun lexeme hlexeme declared name location body₀ held hbody => ?_
  obtain rfl := Lexeme.bare_eq_identifier_iff.1 hlexeme
  obtain rfl := hbody
  exact ⟨_, .reference, .settled⟩

theorem literal (body : Body) (text : String) :
    Reads [.unplaced (.literal text)] body (body.push (.literal text)) := by
  refine single fun lexeme hlexeme declared name location body₀ held hbody => ?_
  obtain ⟨token, l⟩ := lexeme
  obtain rfl : token = .literal text := Lexeme.token_eq_of_bare hlexeme
  obtain rfl := hbody
  -- The literal is held, and counts as read all the same.
  exact ⟨_, .literal, settle body₀ held, some ⟨text, l⟩, rfl, rfl⟩

theorem range (body : Body) {lo hi : Char} (h : lo ≤ hi) :
    Reads (Atom.range lo hi).written body (body.push (.range lo hi)) := by
  intro lexemes hlexemes declared name location r hr
  obtain ⟨⟨first, l⟩, rest, rfl, hfirst, hrest⟩ := List.map_eq_cons_iff.1 hlexemes
  obtain ⟨⟨second, l'⟩, rest', rfl, hsecond, hrest'⟩ := List.map_eq_cons_iff.1 hrest
  obtain ⟨⟨third, l''⟩, rfl, hthird⟩ := List.map_eq_singleton_iff.1 hrest'
  obtain rfl : first = .literal (String.singleton lo) := Lexeme.token_eq_of_bare hfirst
  obtain rfl : second = .ellipsis := Lexeme.token_eq_of_bare hsecond
  obtain rfl : third = .literal (String.singleton hi) := Lexeme.token_eq_of_bare hthird
  obtain ⟨body₀, held, rfl, rfl⟩ := hr
  -- The lower bound is held behind the first token, so that the dots can follow.
  have hbound : Moves
      ⟨declared, .bounded name location (settle body₀ held) ⟨String.singleton lo, l⟩⟩
      ⟨.literal (String.singleton hi), l''⟩
      ⟨declared, .inside name location ((settle body₀ held).push (.range lo hi)) none⟩ :=
    .bound (Atom.ofBounds_eq_ok_iff.2 ⟨lo, hi, rfl, rfl, h, rfl⟩)
  exact ⟨_, run_cons_iff.2 ⟨_, .literal, run_cons_iff.2 ⟨_, .ellipsis, hbound.run⟩⟩, .settled⟩

end Reads

mutual

/-- The tokens of an atom add the atom to what has been read. -/
theorem reads_written (atom : Atom) (h : atom.Writable) (body : Body) :
    Reads atom.written body (body.push atom) := by
  cases h with
  | reference referent l => exact .reference body referent l
  | literal text => exact .literal body text
  | range hle => exact .range body hle
  | @nested bracket inner hne hinner =>
    -- Between the brackets a level of its own is read, and leaving them makes it an atom.
    obtain ⟨level, hclose, hreads⟩ :=
      reads_writtenAmong inner hne hinner ((bracket, body.level) :: body.enclosing)
    have hleave := Reads.leave level body.level bracket body.enclosing
    rw [hclose] at hleave
    exact (Reads.enter body bracket).append (hreads.append hleave)

theorem reads_writtenIn (atoms : List Atom) (h : ∀ atom ∈ atoms, atom.Writable)
    (level : Level) (enclosing : List (Bracket × Level)) :
    Reads (Atom.writtenIn atoms) ⟨level, enclosing⟩
      ⟨⟨level.alternatives, atoms.reverse ++ level.atoms⟩, enclosing⟩ := by
  cases atoms with
  | nil => exact .nil _
  | cons atom atoms =>
    obtain ⟨hfirst, hrest⟩ := List.forall_mem_cons.1 h
    have hreads := (reads_written atom hfirst ⟨level, enclosing⟩).append
      (reads_writtenIn atoms hrest (level.push atom) enclosing)
    rw [Atom.writtenIn, List.reverse_cons, List.append_assoc]
    exact hreads

theorem reads_writtenAmong (body : List (List Atom)) (hne : body ≠ [])
    (h : ∀ alternative ∈ body, ∀ atom ∈ alternative, atom.Writable)
    (enclosing : List (Bracket × Level)) :
    ∃ level, level.close = body ∧
      Reads (Atom.writtenAmong body) ⟨.empty, enclosing⟩ ⟨level, enclosing⟩ := by
  cases body with
  | nil => exact absurd rfl hne
  | cons alternative body =>
    obtain ⟨hfirst, hrest⟩ := List.forall_mem_cons.1 h
    have hreads := reads_writtenIn alternative hfirst .empty enclosing
    obtain ⟨level, hclose, hreads'⟩ := reads_writtenBars body hrest
      ⟨[], alternative.reverse ++ []⟩ enclosing
    refine ⟨level, ?_, hreads.append hreads'⟩
    rw [hclose, Level.close_eq]
    simp

theorem reads_writtenBars (body : List (List Atom))
    (h : ∀ alternative ∈ body, ∀ atom ∈ alternative, atom.Writable) (level : Level)
    (enclosing : List (Bracket × Level)) :
    ∃ level', level'.close = level.close ++ body ∧
      Reads (Atom.writtenBars body) ⟨level, enclosing⟩ ⟨level', enclosing⟩ := by
  cases body with
  | nil => exact ⟨level, (List.append_nil _).symm, .nil _⟩
  | cons alternative body =>
    obtain ⟨hfirst, hrest⟩ := List.forall_mem_cons.1 h
    have hreads := reads_writtenIn alternative hfirst level.bar enclosing
    obtain ⟨level', hclose, hreads'⟩ := reads_writtenBars body hrest
      ⟨level.bar.alternatives, alternative.reverse ++ level.bar.atoms⟩ enclosing
    refine ⟨level', ?_, (Reads.bar level enclosing).append (hreads.append hreads')⟩
    rw [hclose, Level.close_eq]
    simp [Level.close, Level.bar]

end

/-- The tokens of a declaration are read as that declaration. -/
theorem run_written {d : Declaration} (h : d.Writable) {lexemes : List Lexeme}
    (hlexemes : lexemes.map Lexeme.bare = d.written) (declared : List Declaration) :
    Run ⟨declared, .outside⟩ lexemes ⟨d :: declared, .outside⟩ := by
  obtain ⟨first, rest, rfl, hfirst, hrest⟩ := List.map_eq_cons_iff.1 hlexemes
  obtain ⟨⟨second, l⟩, rest', rfl, hsecond, hrest'⟩ := List.map_eq_cons_iff.1 hrest
  obtain ⟨inner, last, rfl, hinner, hlast⟩ := List.map_eq_append_iff.1 hrest'
  obtain ⟨⟨third, l'⟩, rfl, hthird⟩ := List.map_eq_singleton_iff.1 hlast
  obtain rfl := Lexeme.bare_eq_identifier_iff.1 hfirst
  obtain rfl : second = .define := Lexeme.token_eq_of_bare hsecond
  obtain rfl : third = .semicolon := Lexeme.token_eq_of_bare hthird
  obtain ⟨level, hclose, hreads⟩ := reads_writtenAmong d.body h.ne_nil h.atom []
  obtain ⟨r, hrun, body, held, hbody, rfl⟩ :=
    hreads inner hinner declared d.name d.location _ .settled
  have hend := hrun.append (Moves.semicolon (l := l') hbody).run
  rw [hclose] at hend
  exact run_cons_iff.2 ⟨_, .name, run_cons_iff.2 ⟨_, .define, hend⟩⟩

/-- The tokens of declarations are read as these declarations. -/
theorem run_flatMap_written {ds : List Declaration} (h : ∀ d ∈ ds, d.Writable)
    {lexemes : List Lexeme} (hlexemes : lexemes.map Lexeme.bare = ds.flatMap Declaration.written)
    (declared : List Declaration) :
    Run ⟨declared, .outside⟩ lexemes ⟨ds.reverse ++ declared, .outside⟩ := by
  induction ds generalizing lexemes declared with
  | nil =>
    obtain rfl := List.map_eq_nil_iff.1 hlexemes
    exact run_nil_iff.2 rfl
  | cons d ds ih =>
    obtain ⟨hd, hds⟩ := List.forall_mem_cons.1 h
    rw [List.flatMap_cons] at hlexemes
    obtain ⟨first, rest, rfl, hfirst, hrest⟩ := List.map_eq_append_iff.1 hlexemes
    have hrun := (run_written hd hfirst declared).append (ih hds hrest (d :: declared))
    rw [List.reverse_cons, List.append_assoc]
    exact hrun

/-! ### The end of the text -/

theorem finish_eq_ok_iff {endOfText : Location} {ds : List Declaration} :
    r.finish endOfText = .ok ds ↔ r = ⟨ds.reverse, .outside⟩ := by
  obtain ⟨declared, place⟩ := r
  cases place with
  | outside => simp [finish, List.reverse_eq_iff]
  | named | inside | bounded => simp [finish]

/-! ### Errors -/

/-- The literal that may be, or is, the lower bound of a range. -/
def Place.lower? : Place → Option Held
  | .inside _ _ _ held => held
  | .bounded _ _ _ lower => some lower
  | .outside | .named _ _ => none

/-- A literal that is held was the last token, or was held before. -/
theorem Moves.lower (h : Moves r lexeme r') :
    ∀ lower ∈ r'.place.lower?, lower.location = lexeme.location ∨ lower ∈ r.place.lower? := by
  intro lower hlower
  cases h with
  | literal =>
    cases hlower
    exact Or.inl rfl
  | ellipsis => exact Or.inr hlower
  | name | define | reference | bound | bar | enter | leave | semicolon => cases hlower

theorem Run.lower {lexemes : List Lexeme} (h : Run r lexemes r') :
    ∀ lower ∈ r'.place.lower?,
      (∃ lexeme ∈ lexemes, lower.location = lexeme.location) ∨ lower ∈ r.place.lower? := by
  induction lexemes generalizing r with
  | nil =>
    obtain rfl := run_nil_iff.1 h
    exact fun lower hlower => Or.inr hlower
  | cons lexeme lexemes ih =>
    obtain ⟨next, hmoves, hrest⟩ := run_cons_iff.1 h
    intro lower hlower
    rcases ih hrest lower hlower with ⟨lexeme', hmem, hlocation⟩ | hlower
    · exact Or.inl ⟨lexeme', List.mem_cons_of_mem _ hmem, hlocation⟩
    · rcases hmoves.lower lower hlower with hlocation | hlower
      · exact Or.inl ⟨lexeme, List.mem_cons_self, hlocation⟩
      · exact Or.inr hlower

theorem stepInside_error {e : CompileError}
    (h : stepInside declared name location body lexeme = .error e) :
    e.fault = .syntaxError ∧ e.location = lexeme.location := by
  unfold stepInside at h
  split at h
  case h_7 =>
    split at h
    · split at h <;> cases h
    · cases h
      exact ⟨rfl, rfl⟩
  all_goals cases h

/-- An error is at the token, unless this completes a range with bounds that do not fit. -/
theorem step_error_cases {e : CompileError} (h : r.step lexeme = .error e) :
    e.fault = .syntaxError ∧ e.location = lexeme.location ∨
      ∃ declared name location body lower upper l,
        r = ⟨declared, .bounded name location body lower⟩ ∧ lexeme = ⟨.literal upper, l⟩ ∧
          Atom.ofBounds lower.text upper lower.location = .error e := by
  obtain ⟨declared, place⟩ := r
  obtain ⟨token, l⟩ := lexeme
  unfold step at h
  split at h <;> dsimp only at *
  case h_1 | h_3 | h_5 => cases h
  case h_2 | h_4 | h_8 =>
    cases h
    exact Or.inl ⟨rfl, rfl⟩
  case h_6 => exact Or.inl (stepInside_error h)
  case h_7 =>
    split at h
    · next hrange =>
      cases h
      subst_vars
      exact Or.inr ⟨_, _, _, _, _, _, _, rfl, rfl, hrange⟩
    · cases h

/-- An error is located at the token, or at the lower bound of the range that it completes. -/
theorem step_error {e : CompileError} (h : r.step lexeme = .error e) :
    e.fault = .syntaxError ∧
      (e.location = lexeme.location ∨ ∃ lower ∈ r.place.lower?, e.location = lower.location) := by
  rcases step_error_cases h with
    ⟨hfault, hlocation⟩ | ⟨_, _, _, _, lower, _, _, rfl, rfl, hbounds⟩
  · exact ⟨hfault, Or.inl hlocation⟩
  · obtain ⟨hfault, hlocation⟩ := Atom.ofBounds_error hbounds
    exact ⟨hfault, Or.inr ⟨lower, rfl, hlocation⟩⟩

theorem finish_error {endOfText : Location} {e : CompileError} (h : r.finish endOfText = .error e) :
    e.fault = .syntaxError ∧ e.location = endOfText := by
  unfold finish at h
  split at h
  · cases h
  all_goals
    cases h
    exact ⟨rfl, rfl⟩

end Reader

namespace Declaration

theorem ofLexemes_eq_ok_iff_run {lexemes : List Lexeme} {endOfText : Location}
    {ds : List Declaration} :
    ofLexemes lexemes endOfText = .ok ds ↔ Reader.Run .start lexemes ⟨ds.reverse, .outside⟩ := by
  rw [ofLexemes, Reader.Run]
  cases lexemes.foldlM Reader.step Reader.start with
  | error e => simp [bind, Except.bind]
  | ok r => simp [bind, Except.bind, Reader.finish_eq_ok_iff]

/-- Tokens form declarations if they are the writing of these, which are writable. -/
theorem ofLexemes_eq_ok_iff {lexemes : List Lexeme} {endOfText : Location}
    {ds : List Declaration} :
    ofLexemes lexemes endOfText = .ok ds ↔
      (∀ d ∈ ds, d.Writable) ∧ lexemes.map Lexeme.bare = ds.flatMap written := by
  rw [ofLexemes_eq_ok_iff_run]
  constructor
  · intro h
    have hstart : Reader.start.Writable := ⟨by simp [Reader.start], trivial⟩
    obtain ⟨⟨hwritable, -⟩, hwritten⟩ := h.written_eq hstart
    refine ⟨by simpa using hwritable, ?_⟩
    simpa [Reader.written, Reader.Place.written, Reader.start] using hwritten.symm
  · rintro ⟨hwritable, hlexemes⟩
    have hrun := Reader.run_flatMap_written hwritable hlexemes []
    rwa [List.append_nil] at hrun

/-- Writable declarations are written as different tokens, unless they differ only in places. -/
theorem map_unplaced_eq {ds ds' : List Declaration} (h : ∀ d ∈ ds, d.Writable)
    (h' : ∀ d ∈ ds', d.Writable)
    (htokens : (ds.flatMap written).map Lexeme.token = (ds'.flatMap written).map Lexeme.token) :
    ds.map unplaced = ds'.map unplaced := by
  have hreads (ds : List Declaration) (h : ∀ d ∈ ds, d.Writable) :
      ofLexemes (((ds.flatMap written).map Lexeme.token).map Lexeme.unplaced) .origin =
        .ok (ds.map unplaced) := by
    refine ofLexemes_eq_ok_iff.2 ⟨List.forall_mem_map.2 fun d hd => (h d hd).unplaced, ?_⟩
    simp [flatMap_written_map_unplaced, Lexeme.bare_unplaced]
  have heq := hreads ds h
  rw [htokens, hreads ds' h'] at heq
  exact (Except.ok.inj heq).symm

end Declaration

/-- **Reading inverts writing.** Declarations are what is read from tokens just if they are writable
and the tokens are their writing, with every identifier at the place that the declarations give it.
So the sequences that are accepted are those that follow the rules, with ranges between single
characters in order. And no sequence is the writing of two lists of declarations: writable
declarations with the same tokens differ at most in places. -/
theorem reading_inverts_writing (endOfText : Location) :
    (∀ (lexemes : List Lexeme) (ds : List Declaration),
      Declaration.ofLexemes lexemes endOfText = .ok ds ↔
        (∀ d ∈ ds, d.Writable) ∧ lexemes.map Lexeme.bare = ds.flatMap Declaration.written) ∧
    (∀ lexemes : List Lexeme, (∃ ds, Declaration.ofLexemes lexemes endOfText = .ok ds) ↔
      Forms BoundsRange .declarations (lexemes.map Lexeme.token)) ∧
    ∀ ds ds' : List Declaration, (∀ d ∈ ds, d.Writable) → (∀ d ∈ ds', d.Writable) →
      (ds.flatMap Declaration.written).map Lexeme.token =
        (ds'.flatMap Declaration.written).map Lexeme.token →
      ds.map Declaration.unplaced = ds'.map Declaration.unplaced := by
  refine ⟨fun lexemes ds => Declaration.ofLexemes_eq_ok_iff, fun lexemes => ?_,
    fun ds ds' h h' htokens => Declaration.map_unplaced_eq h h' htokens⟩
  rw [forms_declarations_iff]
  exact exists_congr fun ds => Declaration.ofLexemes_eq_ok_iff

/-- A declaration with a range, an empty alternative and brackets in brackets. -/
def bracketedDeclaration (l l' : Location) : Declaration where
  name := "x"
  location := l
  body := [[.range 'a' 'z'], [],
    [.nested .repetition [[.nested .optional [[], [.reference "x" l']], .literal "..."]]]]

theorem writable_bracketedDeclaration (l l' : Location) :
    (bracketedDeclaration l l').Writable where
  ne_nil := List.cons_ne_nil _ _
  atom := by
    have hoptional : (Atom.nested .optional [[], [.reference "x" l']]).Writable :=
      .nested _ (List.cons_ne_nil _ _) (by simp [Atom.Writable.reference])
    have hrepetition : (Atom.nested .repetition
        [[.nested .optional [[], [.reference "x" l']], .literal "..."]]).Writable :=
      .nested _ (List.cons_ne_nil _ _) (by simp [hoptional, Atom.Writable.literal])
    have hrange : (Atom.range 'a' 'z').Writable := .range (by decide)
    simp [bracketedDeclaration, hrepetition, hrange]

theorem reading_inverts_writing_bracketed :
    let d := bracketedDeclaration ⟨0, 1, 1⟩ ⟨30, 2, 5⟩
    let d' := bracketedDeclaration .origin .origin
    Declaration.ofLexemes d.written .origin = .ok [d] ∧
      Forms BoundsRange .declarations (d.written.map Lexeme.token) ∧
      [d, d].map Declaration.unplaced = [d', d'].map Declaration.unplaced := by
  intro d d'
  have hd : d.Writable := writable_bracketedDeclaration _ _
  have hd' : d'.Writable := writable_bracketedDeclaration _ _
  obtain ⟨hread, hforms, hunique⟩ := reading_inverts_writing .origin
  have hok : Declaration.ofLexemes d.written .origin = .ok [d] :=
    (hread _ _).2 ⟨by simpa using hd, by rfl⟩
  exact ⟨hok, (hforms _).1 ⟨_, hok⟩, hunique _ _ (by simpa using hd) (by simpa using hd') rfl⟩

end Earley
