/-
  A token stream accounts for every character of its text.

  A text is trivia and tokens in turn, up to its end or to a misspelling (`Splits`), and every
  token and misspelling is located where it begins. One call of `next` takes one step of this
  (`next_cases`), so a stream that is run to its end splits its text (`collect_splits`). The calls
  of `next` give just what `collect` has collected, and nothing from then on.
-/
import Earley.Proofs.Ebnf.Spelling

namespace Earley

namespace Location

theorem locate_add {text : List Char} {offset : Nat} {cs rest : List Char}
    (h : text.drop offset = cs ++ rest) :
    locate text (offset + cs.length) = (locate text offset).advanceAll cs := by
  rw [locate, List.take_add, h, List.take_left, advanceAll_append, locate]

theorem offset_locate {text : List Char} {offset : Nat} (h : offset ≤ text.length) :
    (locate text offset).offset = offset := by
  rw [locate, offset_advanceAll, List.length_take, Nat.min_eq_left h]
  exact Nat.zero_add offset

end Location

/-! ### Splitting a text -/

/-- Tells that a text, from an offset on, is trivia and spellings of tokens in turn: either up to
its end, or up to a misspelling. The tokens and the misspelling are located where they begin. -/
inductive Splits (text : List Char) : Nat → List Lexeme → Option TokenError → Prop
  | done {offset : Nat} (h : TriviaBefore [] (text.drop offset)) : Splits text offset [] none
  | failure {offset : Nat} {trivia rest : List Char} {fault : Misspelling}
      (h : text.drop offset = trivia ++ rest) (htrivia : TriviaBefore rest trivia)
      (hfault : fault.Begins rest) :
      Splits text offset []
        (some (.ofMisspelling fault (.locate text (offset + trivia.length))))
  | lexeme {offset : Nat} {trivia w rest : List Char} {token : Token} {lexemes : List Lexeme}
      {failure : Option TokenError} (h : text.drop offset = trivia ++ (w ++ rest))
      (htrivia : TriviaBefore (w ++ rest) trivia) (hw : w ≠ [])
      (htoken : token.SpelledBefore rest w)
      (hrest : Splits text (offset + trivia.length + w.length) lexemes failure) :
      Splits text offset (⟨token, .locate text (offset + trivia.length)⟩ :: lexemes) failure

namespace Splits

variable {text : List Char} {offset : Nat} {lexemes : List Lexeme} {failure : Option TokenError}

/-- The tokens stand at different places, in the order of the text. -/
theorem pairwise_offset (h : Splits text offset lexemes failure) :
    (∀ lexeme ∈ lexemes, offset ≤ lexeme.location.offset) ∧
      lexemes.Pairwise fun l l' => l.location.offset < l'.location.offset := by
  induction h with
  | done | failure => simp
  | @lexeme offset trivia w rest token lexemes failure h _ hw _ _ ih =>
    obtain ⟨hle, hpairwise⟩ := ih
    have hlength := congrArg List.length h
    have hpos : 0 < w.length := List.length_pos_of_ne_nil hw
    simp only [List.length_drop, List.length_append] at hlength
    have hoffset : (Location.locate text (offset + trivia.length)).offset =
        offset + trivia.length := Location.offset_locate (by omega)
    refine ⟨List.forall_mem_cons.2 ⟨?_, fun lexeme hmem => ?_⟩,
      List.pairwise_cons.2 ⟨fun lexeme hmem => ?_, hpairwise⟩⟩
    · dsimp only
      omega
    · have := hle lexeme hmem
      omega
    · have := hle lexeme hmem
      dsimp only
      omega

/-- Tokens and misspellings are located in the text. -/
theorem exists_locate (h : Splits text offset lexemes failure) :
    (∀ lexeme ∈ lexemes, ∃ k ≤ text.length, lexeme.location = .locate text k) ∧
      ∀ e ∈ failure, ∃ k ≤ text.length, e.location = .locate text k := by
  induction h with
  | done => simp
  | @failure offset trivia rest fault h _ hfault =>
    have hlength := congrArg List.length h
    have hpos : 0 < rest.length := List.length_pos_of_ne_nil hfault.ne_nil
    simp only [List.length_drop, List.length_append] at hlength
    refine ⟨by simp, fun e he => ⟨offset + trivia.length, by omega, ?_⟩⟩
    obtain rfl := Option.some.inj he
    rfl
  | @lexeme offset trivia w rest token lexemes failure h _ hw _ _ ih =>
    have hlength := congrArg List.length h
    have hpos : 0 < w.length := List.length_pos_of_ne_nil hw
    simp only [List.length_drop, List.length_append] at hlength
    exact ⟨List.forall_mem_cons.2 ⟨⟨offset + trivia.length, by omega, rfl⟩, ih.1⟩, ih.2⟩

end Splits

/-! ### One call -/

namespace TokenStream

variable {s : TokenStream}

/-- What a call of `next` gives on a stream without failure: nothing if only trivia is left, else
the misspelling or the token behind the trivia. -/
theorem next_cases (h : s.failed = false) :
    (TriviaBefore [] s.rest ∧ ∃ loc, s.next = (none, ⟨[], loc, false⟩)) ∨
      (∃ trivia rest fault, s.rest = trivia ++ rest ∧ TriviaBefore rest trivia ∧
        fault.Begins rest ∧
        s.next = (some (.error (.ofMisspelling fault (s.location.advanceAll trivia))),
          { s with failed := true })) ∨
      ∃ trivia w rest token, s.rest = trivia ++ (w ++ rest) ∧ TriviaBefore (w ++ rest) trivia ∧
        w ≠ [] ∧ token.SpelledBefore rest w ∧
        s.next = (some (.ok ⟨token, s.location.advanceAll trivia⟩),
          ⟨rest, (s.location.advanceAll trivia).advanceAll w, false⟩) := by
  rw [next, h]
  simp only [Bool.false_eq_true, if_false]
  cases htrivia : skipTrivia .plain s.rest s.location with
  | error e =>
    obtain ⟨loc, rfl, ⟨hmode, -⟩ | ⟨dropped, rest, hrest, hdrops, hbegins, rfl⟩⟩ :=
      skipTrivia_error htrivia
    · cases hmode
    · exact Or.inr (Or.inl ⟨dropped, rest, .openComment, hrest, hdrops, hbegins, rfl⟩)
  | ok result =>
    obtain ⟨rest, loc⟩ := result
    obtain ⟨dropped, hrest, hdrops, rfl, hstart⟩ := skipTrivia_ok htrivia
    cases rest with
    | nil =>
      rw [List.append_nil] at hrest
      exact Or.inl ⟨hrest ▸ hdrops, _, rfl⟩
    | cons c rest =>
      cases hread : readToken c rest (s.location.advanceAll dropped) with
      | error fault =>
        have hbegins := readToken_error hread hstart
        exact Or.inr (Or.inl ⟨dropped, _, fault, hrest, hdrops, hbegins, by simp [hread]⟩)
      | ok reading =>
        obtain ⟨w, hw, hne, hspelled, hlocation⟩ := readToken_ok hread hstart
        rw [hw] at hrest hdrops
        exact Or.inr (Or.inr ⟨dropped, w, reading.rest, reading.token, hrest, hdrops, hne, hspelled,
          by simp [hread, hlocation]⟩)

/-! ### All calls -/

/-- What the `n`-th call of `next` gives, counted from zero. -/
def call (s : TokenStream) (n : Nat) : Option (Except TokenError Lexeme) :=
  ((fun s => s.next.2)^[n] s).next.1

theorem call_zero (s : TokenStream) : s.call 0 = s.next.1 := rfl

theorem call_succ (s : TokenStream) (n : Nat) : s.call (n + 1) = s.next.2.call n := by
  rw [call, Function.iterate_succ_apply, call]

/-- A stream that gives nothing and stays as it is gives nothing ever. -/
theorem call_of_next_eq (h : s.next = (none, s)) (n : Nat) : s.call n = none := by
  induction n with
  | zero => rw [call_zero, h]
  | succ n ih => rw [call_succ, h, ih]

theorem next_of_failed (h : s.failed = true) : s.next = (none, s) := by
  rw [next, h]
  rfl

theorem next_of_rest_eq_nil (loc : Location) : next ⟨[], loc, false⟩ = (none, ⟨[], loc, false⟩) :=
  rfl

/-- Tells what the calls of `next` give one after another: tokens, then perhaps a misspelling, and
nothing from then on. -/
structure Gives (s : TokenStream) (lexemes : List Lexeme) (failure : Option TokenError) : Prop where
  lexeme : ∀ (n : Nat) (h : n < lexemes.length), s.call n = some (.ok lexemes[n])
  failure : s.call lexemes.length = failure.map .error
  ended : ∀ n, lexemes.length < n → s.call n = none

theorem gives_of_next {s' : TokenStream} {lexeme : Lexeme} {lexemes : List Lexeme}
    {failure : Option TokenError} (hnext : s.next = (some (.ok lexeme), s'))
    (h : s'.Gives lexemes failure) : s.Gives (lexeme :: lexemes) failure where
  lexeme n hn := by
    cases n with
    | zero => rw [call_zero, hnext, List.getElem_cons_zero]
    | succ n =>
      rw [call_succ, hnext, h.lexeme n (Nat.lt_of_succ_lt_succ hn), List.getElem_cons_succ]
  failure := by rw [List.length_cons, call_succ, hnext, h.failure]
  ended n hn := by
    cases n with
    | zero => exact absurd hn (Nat.not_lt_zero _)
    | succ n => rw [call_succ, hnext, h.ended n (Nat.lt_of_succ_lt_succ hn)]

/-- A stream that gives no token gives its failure, if any, and then nothing. -/
theorem gives_nil {s' : TokenStream} {failure : Option TokenError}
    (hnext : s.next = (failure.map .error, s')) (hended : s'.next = (none, s')) :
    s.Gives [] failure where
  lexeme n hn := absurd hn (Nat.not_lt_zero n)
  failure := by rw [List.length_nil, call_zero, hnext]
  ended n hn := by
    cases n with
    | zero => exact absurd hn (Nat.lt_irrefl _)
    | succ n => rw [call_succ, hnext, call_of_next_eq hended n]

/-- Running a stream to its end collects what its calls give, and that splits the text from where
the stream stands. -/
theorem collectFrom_spec {text : List Char} {offset : Nat} {taken : List Lexeme}
    (hrest : s.rest = text.drop offset) (hlocation : s.location = .locate text offset)
    (hfailed : s.failed = false) :
    ∃ lexemes, (s.collectFrom taken).lexemes = taken.reverse ++ lexemes ∧
      Splits text offset lexemes (s.collectFrom taken).failure ∧
      s.Gives lexemes (s.collectFrom taken).failure := by
  fun_induction collectFrom taken s generalizing offset with
  | case1 taken s s' hnext =>
    rcases next_cases hfailed with
      ⟨htrivia, loc, hcall⟩ | ⟨_, _, _, -, -, -, hcall⟩ | ⟨_, _, _, _, -, -, -, -, hcall⟩ <;>
      cases hnext.symm.trans hcall
    exact ⟨[], (List.append_nil _).symm, .done (hrest ▸ htrivia),
      gives_nil hnext (next_of_rest_eq_nil loc)⟩
  | case2 taken s e s' hnext =>
    rcases next_cases hfailed with
      ⟨_, _, hcall⟩ | ⟨trivia, rest, fault, heq, htrivia, hfault, hcall⟩ |
        ⟨_, _, _, _, -, -, -, -, hcall⟩ <;>
      cases hnext.symm.trans hcall
    have hdrop := hrest.symm.trans heq
    refine ⟨[], (List.append_nil _).symm, ?_, gives_nil hnext (next_of_failed rfl)⟩
    rw [hlocation, ← Location.locate_add hdrop]
    exact .failure hdrop htrivia hfault
  | case3 taken s lexeme s' hnext _ ih =>
    rcases next_cases hfailed with
      ⟨_, _, hcall⟩ | ⟨_, _, _, -, -, -, hcall⟩ |
        ⟨trivia, w, rest, token, heq, htrivia, hw, htoken, hcall⟩ <;>
      cases hnext.symm.trans hcall
    have hdrop := hrest.symm.trans heq
    have hdrop' : text.drop (offset + trivia.length) = w ++ rest := by
      rw [← List.drop_drop, hdrop, List.drop_left]
    -- The rest of the stream stands behind the spelling.
    have hrest' : rest = text.drop (offset + trivia.length + w.length) := by
      rw [← List.drop_drop, hdrop', List.drop_left]
    rw [hlocation, ← Location.locate_add hdrop] at hnext ih ⊢
    obtain ⟨lexemes, hlexemes, hsplits, hgives⟩ :=
      ih hrest' (Location.locate_add hdrop').symm rfl
    exact ⟨_ :: lexemes, by simpa using hlexemes, .lexeme hdrop htrivia hw htoken hsplits,
      gives_of_next hnext hgives⟩

/-- What is collected from a stream splits its text and is what the calls give. -/
theorem collect_spec (text : List Char) :
    Splits text 0 (ofChars text).collect.lexemes (ofChars text).collect.failure ∧
      (ofChars text).Gives (ofChars text).collect.lexemes (ofChars text).collect.failure := by
  obtain ⟨lexemes, hlexemes, hspec⟩ :=
    @collectFrom_spec (ofChars text) text 0 [] rfl rfl rfl
  rw [List.reverse_nil, List.nil_append] at hlexemes
  rw [collect, hlexemes]
  exact hspec

end TokenStream

/-- **A token stream accounts for its text.** What is collected from the stream of a text splits the
whole of it: up to the end of the last token there are trivia and spellings of tokens, each token
located at the first character of its spelling, and the rest is trivia or has a misspelling behind
trivia, where the failure is located. So the tokens stand at ascending places. What is collected is
what the calls of `next` give one after another, and behind the first failure, or the first call
that gives nothing, all calls give nothing. -/
theorem collect_accounts (text : List Char) :
    let s := TokenStream.ofChars text
    Splits text 0 s.collect.lexemes s.collect.failure ∧
      s.collect.lexemes.Pairwise (fun l l' => l.location.offset < l'.location.offset) ∧
      s.Gives s.collect.lexemes s.collect.failure := by
  obtain ⟨hsplits, hgives⟩ := TokenStream.collect_spec text
  exact ⟨hsplits, hsplits.pairwise_offset.2, hgives⟩

end Earley
