/-
  The tokenizer on a rewindable reader gives what the stream over the whole text gives.

  The stream walks over a list of characters and keeps in its mode where it is; the tokenizer asks
  a reader, and backs out where the answer is no. Each loop of the tokenizer is followed along its
  own recursion, and the answers of the reader (`Reads`) tell which way the walk of the stream goes:
  in a block comment (`reads_passBlock`), in a literal (`reads_scanLiteral`) and over trivia
  (`skips_skipTrivia`).

  A tokenizer stands where a stream stands if nothing is read and not dropped, the rest of the
  stream is ahead, and the locations are the same (`Matches`). One call keeps that
  (`next_matches`), and so all calls give the same.
-/
import Earley.Ebnf.Tokenizer
import Earley.Proofs.Ebnf.SpelledOut
import Earley.Proofs.Text.Answers

namespace Earley

namespace Rewindable

/-! ### Trivia as the stream drops it -/

variable {r moved : Rewindable} {seen cs : List Char} {c quote : Char}

/-- The stream drops a run of blanks one by one. -/
theorem skipTrivia_blanks (cs : List Char) (loc : Location) :
    skipTrivia .plain cs loc =
      skipTrivia .plain (cs.dropWhile isBlank) (loc.advanceAll (cs.takeWhile isBlank)) := by
  induction cs generalizing loc with
  | nil => rfl
  | cons c cs ih =>
    by_cases hc : isBlank c = true
    · rw [List.dropWhile_cons_of_pos hc, List.takeWhile_cons_of_pos hc, Location.advanceAll_cons,
        ← ih, skipTrivia, if_pos hc]
      rintro tail rfl -
      exact absurd hc (by decide)
    · rw [List.dropWhile_cons_of_neg hc, List.takeWhile_cons_of_neg hc, Location.advanceAll_nil]

/-- A run that is empty has not met its condition at its first character. -/
theorem head?_of_takeWhile_eq_nil {p : Char → Bool} (h : cs.takeWhile p = []) :
    ∀ c ∈ cs.head?, p c = false := by
  intro c hc
  obtain ⟨ds, rfl⟩ := List.head?_eq_some_iff.1 hc
  simpa [List.takeWhile_cons] using h

theorem skipTrivia_hash (cs : List Char) (loc : Location) :
    skipTrivia .plain ('#' :: cs) loc = skipTrivia .line cs (loc.advance '#') := rfl

theorem skipTrivia_openBlock (cs : List Char) (loc : Location) :
    skipTrivia .plain (['(', '*'] ++ cs) loc =
      skipTrivia (.block loc) cs (loc.advanceAll ['(', '*']) := rfl

/-- A comment up to the end of its line may be dropped without the line feed, which is a blank. -/
theorem skipTrivia_untilLineFeed (cs : List Char) (loc : Location) :
    skipTrivia .line cs loc =
      skipTrivia .plain (cs.dropWhile fun c => !(['\n'].contains c))
        (loc.advanceAll (cs.takeWhile fun c => !(['\n'].contains c))) := by
  induction cs generalizing loc with
  | nil => rfl
  | cons c cs ih =>
    rw [skipTrivia]
    by_cases hc : c = '\n'
    · subst hc
      rfl
    · rw [if_neg hc, ih, List.dropWhile_cons_of_pos (by simpa using hc),
        List.takeWhile_cons_of_pos (by simpa using hc), Location.advanceAll_cons]

/-- Inside a block comment a character is dropped unless the mark that closes it begins there. -/
theorem skipTrivia_block_cons (h : ¬closeComment <+: c :: cs) (opened loc : Location) :
    skipTrivia (.block opened) (c :: cs) loc = skipTrivia (.block opened) cs (loc.advance c) := by
  rw [skipTrivia]
  rintro tail rfl rfl
  exact h ⟨tail, rfl⟩

/-! ### The loops over a comment and a literal -/

/-- To pass a block comment is to walk over it up to the mark that closes it. -/
theorem reads_passBlock {closed : Bool} (h : r.Reads seen cs)
    (heq : r.passBlock = (closed, moved)) :
    (closed = true ∧ ∃ passed rest, moved.Reads (seen ++ passed) rest ∧
        ∀ opened loc, skipTrivia (.block opened) cs loc =
          skipTrivia .plain rest (loc.advanceAll passed)) ∨
      (closed = false ∧ ∀ opened loc, skipTrivia (.block opened) cs loc =
        .error (.ofMisspelling .openComment opened)) := by
  fun_induction passBlock r generalizing seen cs with
  | case1 r last hend =>
    obtain ⟨rfl, rfl⟩ := Prod.mk.inj heq
    obtain ⟨rest, rfl, hlast⟩ := h.of_acceptWord_true hend
    exact Or.inl ⟨rfl, closeComment, rest, hlast, fun _ _ => rfl⟩
  | case2 r stayed hend last hnext =>
    obtain ⟨rfl, rfl⟩ := Prod.mk.inj heq
    obtain ⟨-, hstayed⟩ := h.of_acceptWord_false hend
    obtain ⟨rfl, -⟩ := hstayed.of_next_none hnext
    exact Or.inr ⟨rfl, fun _ _ => rfl⟩
  | case3 r stayed hend c last hnext _ ih =>
    -- The mark is not next, so the walk of the stream drops the next character, too.
    obtain ⟨hopen, hstayed⟩ := h.of_acceptWord_false hend
    obtain ⟨ds, rfl, hlast, -⟩ := hstayed.of_next_some hnext
    have hwalk := fun opened loc => skipTrivia_block_cons hopen opened loc
    rcases ih hlast heq with ⟨hclosed, passed, rest, hrest, hdrop⟩ | ⟨hclosed, herror⟩
    · refine Or.inl ⟨hclosed, c :: passed, rest, by simpa using hrest, ?_⟩
      intro opened loc
      rw [hwalk, hdrop, Location.advanceAll_cons]
    · exact Or.inr ⟨hclosed, fun opened loc => by rw [hwalk, herror]⟩

/-- To scan a literal is to read it, and the reader has gone over what the location has. -/
theorem reads_scanLiteral {taken : List Char} {scanned : Except Misspelling String}
    (h : r.Reads seen cs) (heq : r.scanLiteral quote taken = (scanned, moved)) (loc : Location) :
    (∃ fault, scanned = .error fault ∧ readLiteral quote taken cs loc = .error fault) ∨
      ∃ text passed rest, scanned = .ok text ∧ moved.Reads (seen ++ passed) rest ∧
        readLiteral quote taken cs loc = .ok (text, rest, loc.advanceAll passed) := by
  fun_induction scanLiteral quote taken r generalizing seen cs loc with
  | case1 taken r last hnext =>
    obtain ⟨rfl, rfl⟩ := Prod.mk.inj heq
    obtain ⟨rfl, -⟩ := h.of_next_none hnext
    exact Or.inl ⟨_, rfl, rfl⟩
  | case2 taken r last hnext =>
    obtain ⟨rfl, rfl⟩ := Prod.mk.inj heq
    obtain ⟨ds, rfl, hlast, -⟩ := h.of_next_some hnext
    refine Or.inr ⟨_, [quote], ds, rfl, hlast, ?_⟩
    rw [readLiteral.eq_def]
    exact if_pos rfl
  | case3 taken r second last hescape hnext _ hquote =>
    obtain ⟨rfl, rfl⟩ := Prod.mk.inj heq
    obtain ⟨ds, rfl, hsecond, -⟩ := h.of_next_some hnext
    obtain ⟨rfl, -⟩ := hsecond.of_next_none hescape
    refine Or.inl ⟨_, rfl, ?_⟩
    rw [readLiteral.eq_def]
    simp only [hquote, if_false, if_true]
  | case4 taken r second d last hescape hd hnext _ hquote _ =>
    obtain ⟨rfl, rfl⟩ := Prod.mk.inj heq
    obtain ⟨ds, rfl, hsecond, -⟩ := h.of_next_some hnext
    obtain ⟨es, rfl, -, -⟩ := hsecond.of_next_some hescape
    refine Or.inl ⟨_, rfl, ?_⟩
    rw [readLiteral.eq_def]
    simp only [hquote, hd, if_false, if_true]
  | case5 taken r second d last hescape e hd hnext _ hquote _ ih =>
    obtain ⟨ds, rfl, hsecond, -⟩ := h.of_next_some hnext
    obtain ⟨es, rfl, hlast, -⟩ := hsecond.of_next_some hescape
    rw [readLiteral_backslash hquote hd]
    rcases ih hlast heq ((loc.advance '\\').advance d) with
      hfault | ⟨text, passed, rest, hscanned, hrest, hread⟩
    · exact Or.inl hfault
    · exact Or.inr ⟨text, '\\' :: d :: passed, rest, hscanned, by simpa using hrest, hread⟩
  | case6 taken r c second hnext _ hquote hbackslash ih =>
    obtain ⟨ds, rfl, hsecond, -⟩ := h.of_next_some hnext
    rw [readLiteral_cons hquote hbackslash]
    rcases ih hsecond heq (loc.advance c) with
      hfault | ⟨text, passed, rest, hscanned, hrest, hread⟩
    · exact Or.inl hfault
    · exact Or.inr ⟨text, c :: passed, rest, hscanned, by simpa using hrest, hread⟩

/-! ### One token -/

/-- Tells where a reader stands behind a token that begins at `loc`: an identifier has been dropped,
any other token is what has been read. -/
def StandsBehind (r : Rewindable) (reading : Reading) (loc : Location) : Prop :=
  match reading.token with
  | .identifier name =>
    r.Reads [] reading.rest ∧ reading.location = loc.advanceAll name.toList
  | _ => ∃ w, r.Reads w reading.rest ∧ reading.location = loc.advanceAll w

/-- Tells that a reader scans what can be read at `loc`: the same token, or the same misspelling. -/
inductive Scans (loc : Location) :
    Except Misspelling Token × Rewindable → Except Misspelling Reading → Prop
  | error (fault : Misspelling) (moved : Rewindable) :
      Scans loc (.error fault, moved) (.error fault)
  | ok (reading : Reading) {moved : Rewindable} (h : moved.StandsBehind reading loc) :
      Scans loc (.ok reading.token, moved) (.ok reading)

/-- An identifier is dropped when it has been scanned. -/
theorem scans_scanName (h : r.Reads [] (c :: cs)) (hc : ¬(c = '"' ∨ c = '\'')) (loc : Location) :
    Scans loc r.scanName (readWord c cs loc) := by
  rw [readWord, if_neg hc]
  unfold scanName
  split
  · rename_i last hname
    obtain ⟨hstart, hlast⟩ := h.of_acceptIdentifier_true hname
    obtain ⟨hextract, hrest⟩ := hlast.extract
    rw [hextract, if_pos hstart]
    refine .ok (.ofSpelling _ _ _ loc) ⟨hrest, ?_⟩
    rw [String.toList_ofList]
    rfl
  · rename_i stayed hname
    obtain ⟨hstart, hstayed⟩ := h.of_acceptIdentifier_false hname
    rw [if_neg (ne_true_of_eq_false hstart)]
    rcases hnext : stayed.next with ⟨stray, last⟩
    -- The reader has gone back, so the next character is the one that is no start of a name.
    cases stray with
    | none => exact absurd (hstayed.of_next_none hnext).1 (List.cons_ne_nil c cs)
    | some d =>
      obtain ⟨ds, hds, -⟩ := hstayed.of_next_some hnext
      obtain ⟨rfl, rfl⟩ := List.cons.inj hds
      exact .error (.strayChar c) last

theorem scans_scanWord (h : r.Reads [c] cs) (hback : r.prev.2.Reads [] (c :: cs))
    (loc : Location) : Scans loc (r.scanWord c) (readWord c cs loc) := by
  unfold scanWord
  split
  · rename_i hquote
    rw [readWord, if_pos hquote]
    rcases hliteral : r.scanLiteral c [] with ⟨scanned, last⟩
    rcases reads_scanLiteral h hliteral (loc.advance c) with
      ⟨fault, rfl, hread⟩ | ⟨text, passed, rest, rfl, hlast, hread⟩
    · rw [hread]
      exact .error fault last
    · rw [hread]
      exact .ok ⟨.literal text, _, _⟩ ⟨c :: passed, hlast, rfl⟩
  · rename_i hquote
    exact scans_scanName hback hquote loc

theorem scans_scanDefine (h : r.Reads [':'] cs) (loc : Location) :
    Scans loc r.scanDefine (readToken ':' cs loc) := by
  unfold scanDefine
  rcases hcolon : r.acceptChar ':' with ⟨colon, second⟩
  rcases hequal : second.acceptChar '=' with ⟨equal, last⟩
  cases colon with
  | true =>
    obtain ⟨ds, rfl, hsecond⟩ := h.of_acceptChar_true hcolon
    cases equal with
    | true =>
      obtain ⟨es, rfl, hlast⟩ := hsecond.of_acceptChar_true hequal
      exact .ok (.ofSpelling .define _ _ loc) ⟨_, hlast, rfl⟩
    | false =>
      obtain ⟨hmissing, -⟩ := hsecond.of_acceptChar_false hequal
      rw [readToken]
      · exact .error .incompleteDefine last
      · rintro rest ⟨⟩
        exact hmissing rfl
      · rintro rest ⟨⟩
  | false =>
    obtain ⟨hone, hsecond⟩ := h.of_acceptChar_false hcolon
    cases equal with
    | true =>
      obtain ⟨es, rfl, hlast⟩ := hsecond.of_acceptChar_true hequal
      exact .ok (.ofSpelling .define _ _ loc) ⟨_, hlast, rfl⟩
    | false =>
      obtain ⟨hmissing, -⟩ := hsecond.of_acceptChar_false hequal
      rw [readToken]
      · exact .error .incompleteDefine last
      · rintro rest rfl
        exact hone rfl
      · rintro rest rfl
        exact hmissing rfl

theorem scans_scanEllipsis (h : r.Reads ['.'] cs) (loc : Location) :
    Scans loc r.scanEllipsis (readToken '.' cs loc) := by
  unfold scanEllipsis
  split
  · rename_i last hdots
    obtain ⟨ds, rfl, hlast⟩ := h.of_acceptWord_true hdots
    exact .ok (.ofSpelling .ellipsis _ _ loc) ⟨_, hlast, rfl⟩
  · rename_i stayed hdots
    rw [readToken]
    · exact .error .incompleteEllipsis stayed
    · rintro rest rfl
      exact (h.of_acceptWord_false hdots).1 ⟨rest, rfl⟩

/-- To scan the token that begins with a character is to read it. -/
theorem scans_scanFrom (h : r.Reads [c] cs) (hback : r.prev.2.Reads [] (c :: cs))
    (loc : Location) : Scans loc (r.scanFrom c) (readToken c cs loc) := by
  unfold scanFrom
  split
  -- The signs of one character have been read already.
  case h_10 => exact scans_scanDefine h loc
  case h_11 => exact scans_scanEllipsis h loc
  case h_12 =>
    rw [readToken]
    · exact scans_scanWord h hback loc
    all_goals simp_all
  all_goals exact .ok (.ofSpelling _ [_] cs loc) ⟨[_], h, rfl⟩

/-- Behind the trivia the text is at its end, or the token begins with the next character. -/
theorem scanToken_cases (h : r.Reads [] cs) :
    (∃ moved, cs = [] ∧ r.scanToken = (.ok none, moved) ∧ moved.Reads [] []) ∨
      ∃ c ds, ∃ moved : Rewindable, cs = c :: ds ∧
        r.scanToken = (moved.scanFrom c).map (Except.map some) id ∧
          ∀ loc, Scans loc (moved.scanFrom c) (readToken c ds loc) := by
  rcases hnext : r.next with ⟨_ | c, moved⟩
  · obtain ⟨rfl, hmoved⟩ := h.of_next_none hnext
    exact Or.inl ⟨moved, rfl, by rw [scanToken, hnext], hmoved⟩
  · obtain ⟨ds, rfl, hmoved, hback⟩ := h.of_next_some hnext
    exact Or.inr ⟨c, ds, moved, rfl, by rw [scanToken, hnext], scans_scanFrom hmoved hback⟩

end Rewindable

/-! ### The tokenizer -/

namespace Tokenizer

open Rewindable

variable {t : Tokenizer} {r moved : Rewindable} {seen cs : List Char}

/-- To consume is to drop what has been read and to move the location over it. -/
theorem consume_withReader (h : r.Reads seen cs) :
    (t.withReader r).consume.reader.Reads [] cs ∧
      (t.withReader r).consume.location = t.location.advanceAll seen ∧
      (t.withReader r).consume.failed = t.failed := by
  obtain ⟨hextract, hrest⟩ := h.extract
  rw [consume, withReader, hextract]
  exact ⟨hrest, rfl, rfl⟩

/-- Tells that a tokenizer has dropped the trivia that the stream drops, or both have found a
comment that is not closed. -/
inductive Skips (failed : Bool) :
    Option TokenError × Tokenizer → Except TokenError (List Char × Location) → Prop
  | error (e : TokenError) (t : Tokenizer) : Skips failed (some e, t) (.error e)
  | ok {rest : List Char} {r : Rewindable} (loc : Location) (h : r.Reads [] rest) :
      Skips failed (none, ⟨r, loc, failed⟩) (.ok (rest, loc))

/-- Behind a drop the trivia goes on at the location that the drop has moved to. -/
theorem Skips.of_consume (h : r.Reads seen cs)
    (hskips : (t.withReader r).consume.reader.Reads [] cs →
      Skips (t.withReader r).consume.failed (t.withReader r).consume.skipTrivia
        (Earley.skipTrivia .plain cs (t.withReader r).consume.location)) :
    Skips t.failed (t.withReader r).consume.skipTrivia
      (Earley.skipTrivia .plain cs (t.location.advanceAll seen)) := by
  obtain ⟨hreads, hlocation, hfailed⟩ := consume_withReader (t := t) h
  rw [← hlocation, ← hfailed]
  exact hskips hreads

theorem skips_skipTrivia (h : t.reader.Reads [] cs) :
    Skips t.failed t.skipTrivia (Earley.skipTrivia .plain cs t.location) := by
  fun_induction skipTrivia t generalizing cs with
  | case1 t moved hblank _ ih =>
    obtain ⟨-, hmoved⟩ := h.of_advanceWhile hblank
    rw [skipTrivia_blanks]
    exact .of_consume hmoved ih
  | case2 t plain hblank moved hhash b line hline _ ih =>
    obtain ⟨-, hplain⟩ := h.of_advanceWhile_false hblank
    obtain ⟨ds, rfl, hmoved⟩ := hplain.of_acceptChar_true hhash
    obtain ⟨-, hrun⟩ := hmoved.of_advanceWhile hline
    rw [skipTrivia_hash, skipTrivia_untilLineFeed]
    exact .of_consume hrun ih
  | case3 t plain hblank unmarked hhash opened hstart closed hclose _ ih =>
    obtain ⟨-, hplain⟩ := h.of_advanceWhile_false hblank
    obtain ⟨-, hunmarked⟩ := hplain.of_acceptChar_false hhash
    obtain ⟨ds, rfl, hopened⟩ := hunmarked.of_acceptWord_true hstart
    rcases reads_passBlock hopened hclose with ⟨-, passed, rest, hpassed, hwalk⟩ | ⟨hopen, -⟩
    · rw [skipTrivia_openBlock, hwalk]
      exact .of_consume hpassed ih
    · cases hopen
  | case4 t plain hblank unmarked hhash opened hstart moved hclose =>
    obtain ⟨-, hplain⟩ := h.of_advanceWhile_false hblank
    obtain ⟨-, hunmarked⟩ := hplain.of_acceptChar_false hhash
    obtain ⟨ds, rfl, hopened⟩ := hunmarked.of_acceptWord_true hstart
    rcases reads_passBlock hopened hclose with ⟨hclosed, -⟩ | ⟨-, hwalk⟩
    · cases hclosed
    · -- The error names the place where the comment was opened, which the stream remembers.
      rw [skipTrivia_openBlock, hwalk]
      exact .error _ _
  | case5 t plain hblank unmarked hhash stayed hstart =>
    obtain ⟨hnone, hplain⟩ := h.of_advanceWhile_false hblank
    obtain ⟨hnohash, hunmarked⟩ := hplain.of_acceptChar_false hhash
    obtain ⟨hnoblock, hstayed⟩ := hunmarked.of_acceptWord_false hstart
    have hstart : StartsNoTrivia cs :=
      ⟨head?_of_takeWhile_eq_nil hnone, hnohash, hnoblock⟩
    rw [skipTrivia_of_startsNoTrivia hstart]
    exact .ok t.location hstayed

/-! ### All calls -/

/-- Tells that a tokenizer stands where a stream stands, or both have found a misspelling. -/
structure Matches (t : Tokenizer) (s : TokenStream) : Prop where
  failed_eq : t.failed = s.failed
  reads : s.failed = false → t.reader.Reads [] s.rest
  location_eq : s.failed = false → t.location = s.location

theorem matches_ofChars (text : List Char) : (ofChars text).Matches (.ofChars text) :=
  ⟨rfl, fun _ => reads_ofChars text, fun _ => rfl⟩

/-- Behind a misspelling it does not matter any more where the tokenizer and the stream stand. -/
theorem matches_of_failed {s : TokenStream} (ht : t.failed = true) (hs : s.failed = true) :
    t.Matches s :=
  ⟨ht.trans hs.symm, fun h => absurd (hs.symm.trans h) (by decide),
    fun h => absurd (hs.symm.trans h) (by decide)⟩

theorem pass_spec {reading : Reading} (h : r.StandsBehind reading t.location) :
    (t.pass reading.token r).reader.Reads [] reading.rest ∧
      (t.pass reading.token r).location = reading.location ∧
      (t.pass reading.token r).failed = t.failed := by
  obtain ⟨token, rest, location⟩ := reading
  cases token with
  | identifier name => exact ⟨h.1, h.2.symm, rfl⟩
  | _ =>
    obtain ⟨w, hreads, hlocation⟩ := h
    obtain ⟨hrest, hpassed, hfailed⟩ := consume_withReader (t := t) hreads
    exact ⟨hrest, hpassed.trans hlocation.symm, hfailed⟩

/-- One call: the tokenizer gives what the stream gives, and stands where it stands behind it. -/
theorem next_matches {s : TokenStream} (h : t.Matches s) :
    t.next.1 = s.next.1 ∧ t.next.2.Matches s.next.2 := by
  obtain ⟨reader, location, failed⟩ := t
  obtain ⟨rest, location', failed'⟩ := s
  obtain ⟨hfailed, hreads, hlocation⟩ := h
  dsimp only at hfailed hreads hlocation
  subst hfailed
  cases failed with
  | true => exact ⟨rfl, matches_of_failed rfl rfl⟩
  | false =>
    obtain rfl := hlocation rfl
    have hskips := skips_skipTrivia (t := ⟨reader, location, false⟩) (hreads rfl)
    rw [next, nextToken, TokenStream.next, if_neg Bool.false_ne_true, if_neg Bool.false_ne_true]
    dsimp only at hskips ⊢
    generalize skipTrivia ⟨reader, location, false⟩ = skipped at hskips ⊢
    generalize Earley.skipTrivia .plain rest location = dropped at hskips ⊢
    cases hskips with
    | error e t => exact ⟨rfl, matches_of_failed rfl rfl⟩
    | @ok rest r loc h =>
      rcases scanToken_cases h with
        ⟨moved, rfl, hscan, hmoved⟩ | ⟨c, ds, moved, rfl, hscan, hscans⟩
      · dsimp only
        rw [hscan]
        exact ⟨rfl, rfl, fun _ => hmoved, fun _ => rfl⟩
      · have hscans := hscans loc
        dsimp only
        rw [hscan]
        generalize moved.scanFrom c = scanned at hscans ⊢
        generalize readToken c ds loc = read at hscans ⊢
        cases hscans with
        | error fault moved => exact ⟨rfl, matches_of_failed rfl rfl⟩
        | ok reading hbehind =>
          obtain ⟨hrest, hlocation, hfailed⟩ := pass_spec (t := ⟨r, loc, false⟩) hbehind
          exact ⟨rfl, hfailed, fun _ => hrest, fun _ => hlocation⟩

/-- What the `n`-th call of `next` gives, counted from zero. -/
def call (t : Tokenizer) (n : Nat) : Option (Except TokenError Lexeme) :=
  ((fun t => t.next.2)^[n] t).next.1

/-- However often it is called, a tokenizer gives what the stream gives. -/
theorem call_of_matches {s : TokenStream} (h : t.Matches s) (n : Nat) : t.call n = s.call n := by
  induction n generalizing t s with
  | zero => exact (next_matches h).1
  | succ n ih =>
    rw [TokenStream.call_succ, ← ih (next_matches h).2, call, Function.iterate_succ_apply, call]

end Tokenizer

/-- **A rewindable reader makes no difference.** Called as often as one likes, the tokenizer that
asks a reader of a text gives the tokens and the misspelling, with their locations, that the stream
over all characters of the text gives. -/
theorem call_tokenizer_eq_call (text : List Char) (n : Nat) :
    (Tokenizer.ofChars text).call n = (TokenStream.ofChars text).call n :=
  Tokenizer.call_of_matches (Tokenizer.matches_ofChars text) n

end Earley
