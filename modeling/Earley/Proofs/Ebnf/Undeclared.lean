/-
  Which undeclared name a compilation reports.

  The names in bodies are looked up once the declarations of each name are joined. Joining keeps the
  order of the references under one name, but the references of a later declaration come before
  those of every name that was first declared in between. So the reported reference is the least one
  by the first declaration of the name it stands under, and only then by its place
  (`LeastDangling`). This is the first one of the text if each name is declared once, and in general
  just if the first one stands under the name that was declared first of all names with undeclared
  references (`undeclared_reported`); a name that is taken up again can draw a later reference to
  the front (`compile_deferredText`).
-/
import Earley.Proofs.Ebnf.Redeclaration
import Mathlib.Data.List.Flatten
import Mathlib.Data.List.Pairwise

namespace Earley

/-! ### Ordered lists -/

section Pairwise

variable {α : Type*} {R : α → α → Prop} {xs : List α} {a b : α}

theorem eq_or_or_of_pairwise (h : xs.Pairwise R) (ha : a ∈ xs) (hb : b ∈ xs) :
    a = b ∨ R a b ∨ R b a := by
  have hpairwise : xs.Pairwise fun a b => R a b ∨ R b a := h.imp Or.inl
  have : Std.Symm fun a b => R a b ∨ R b a := ⟨fun _ _ => Or.symm⟩
  exact or_iff_not_imp_left.2 (hpairwise.forall ha hb)

/-- What is found first comes before all else that could be found. -/
theorem eq_or_of_find?_eq_some {p : α → Bool} (h : xs.Pairwise R) (hfind : xs.find? p = some a)
    (hb : b ∈ xs) (hp : p b = true) : b = a ∨ R a b := by
  obtain ⟨-, before, after, rfl, hbefore⟩ := List.find?_eq_some_iff_append.1 hfind
  have hafter := (List.pairwise_cons.1 (List.pairwise_append.1 h).2.1).1
  rcases List.mem_append.1 hb with hb | hb
  · have hnot := hbefore b hb
    rw [hp] at hnot
    cases hnot
  · exact (List.mem_cons.1 hb).imp_right (hafter b)

end Pairwise

/-! ### References in the order of the text -/

/-- A reference as the token that it is read from. -/
def Reference.lexeme (reference : Reference) : Lexeme :=
  ⟨.identifier reference.name, reference.location⟩

namespace Atom

mutual

theorem references_eq_append (after : List Reference) (atom : Atom) :
    atom.references after = atom.references [] ++ after := by
  cases atom with
  | reference | literal | range => rfl
  | nested _ body => exact referencesAmong_eq_append after body

theorem referencesIn_eq_append (after : List Reference) (atoms : List Atom) :
    referencesIn after atoms = referencesIn [] atoms ++ after := by
  cases atoms with
  | nil => rfl
  | cons atom atoms =>
    rw [referencesIn, referencesIn, references_eq_append (referencesIn after atoms) atom,
      references_eq_append (referencesIn [] atoms) atom, referencesIn_eq_append after atoms,
      List.append_assoc]

theorem referencesAmong_eq_append (after : List Reference) (body : List (List Atom)) :
    referencesAmong after body = referencesAmong [] body ++ after := by
  cases body with
  | nil => rfl
  | cons alternative body =>
    rw [referencesAmong, referencesAmong,
      referencesIn_eq_append (referencesAmong after body) alternative,
      referencesIn_eq_append (referencesAmong [] body) alternative,
      referencesAmong_eq_append after body, List.append_assoc]

end

theorem referencesIn_cons (atom : Atom) (atoms : List Atom) :
    referencesIn [] (atom :: atoms) = atom.references [] ++ referencesIn [] atoms := by
  rw [referencesIn, references_eq_append]

theorem referencesAmong_cons (alternative : List Atom) (body : List (List Atom)) :
    referencesAmong [] (alternative :: body) =
      referencesIn [] alternative ++ referencesAmong [] body := by
  rw [referencesAmong, referencesIn_eq_append]

theorem referencesAmong_eq_flatMap (body : List (List Atom)) :
    referencesAmong [] body = body.flatMap (referencesIn []) := by
  induction body with
  | nil => rfl
  | cons alternative body ih => rw [referencesAmong_cons, ih, List.flatMap_cons]

mutual

/-- The references of an atom are some of its tokens, in their order. -/
theorem sublist_written (atom : Atom) :
    ((atom.references []).map Reference.lexeme).Sublist atom.written := by
  cases atom with
  | reference => exact List.Sublist.refl _
  | literal | range => exact List.nil_sublist _
  | nested bracket body =>
    rw [references, written]
    exact ((sublist_writtenAmong body).trans (List.sublist_append_left ..)).cons _

theorem sublist_writtenIn (atoms : List Atom) :
    ((referencesIn [] atoms).map Reference.lexeme).Sublist (writtenIn atoms) := by
  cases atoms with
  | nil => exact List.nil_sublist _
  | cons atom atoms =>
    rw [referencesIn_cons, List.map_append, writtenIn]
    exact (sublist_written atom).append (sublist_writtenIn atoms)

theorem sublist_writtenAmong (body : List (List Atom)) :
    ((referencesAmong [] body).map Reference.lexeme).Sublist (writtenAmong body) := by
  cases body with
  | nil => exact List.nil_sublist _
  | cons alternative body =>
    rw [referencesAmong_cons, List.map_append, writtenAmong]
    exact (sublist_writtenIn alternative).append (sublist_writtenBars body)

theorem sublist_writtenBars (body : List (List Atom)) :
    ((referencesAmong [] body).map Reference.lexeme).Sublist (writtenBars body) := by
  cases body with
  | nil => exact List.nil_sublist _
  | cons alternative body =>
    rw [referencesAmong_cons, List.map_append, writtenBars]
    exact ((sublist_writtenIn alternative).append (sublist_writtenBars body)).cons _

end

end Atom

/-- Identifiers without the tokens around them are identifiers of the text. -/
theorem Lexeme.map_bare_eq_map_lexeme_iff {lexemes : List Lexeme} {references : List Reference} :
    lexemes.map bare = references.map Reference.lexeme ↔
      lexemes = references.map Reference.lexeme := by
  induction lexemes generalizing references with
  | nil => rfl
  | cons lexeme lexemes ih =>
    cases references with
    | nil => simp
    | cons reference references =>
      rw [List.map_cons, List.map_cons, List.cons_eq_cons, List.cons_eq_cons, ih,
        Reference.lexeme, bare_eq_identifier_iff]

/-- The tokens of a text stand at ascending places. -/
theorem pairwise_offset_of_tokenize {text : List Char} {lexemes : List Lexeme}
    (h : tokenize text = .ok lexemes) :
    lexemes.Pairwise fun l l' => l.location.offset < l'.location.offset := by
  have hpairwise := (TokenStream.collect_spec text).1.pairwise_offset.2
  simp only [tokenize] at h
  split at h
  · cases h
  · cases h
    exact hpairwise

namespace Declaration

variable {text : List Char} {ds merged : List Declaration} {d d' : Declaration}
  {reference reference' : Reference}

theorem sublist_written (d : Declaration) :
    (d.references.map Reference.lexeme).Sublist d.written := by
  rw [written, references]
  exact (((Atom.sublist_writtenAmong d.body).trans (List.sublist_append_left ..)).cons _).cons _

theorem sublist_flatMap_written (ds : List Declaration) :
    ((ds.flatMap references).map Reference.lexeme).Sublist (ds.flatMap written) := by
  rw [List.map_flatMap]
  exact List.Sublist.flatMap_right ds fun d _ => d.sublist_written

/-- The references in a text stand at ascending places. -/
theorem pairwise_references (h : ofChars text = .ok ds) :
    (ds.flatMap references).Pairwise fun r r' => r.location.offset < r'.location.offset := by
  obtain ⟨lexemes, htext, hlexemes⟩ := ofChars_eq_ok_iff.1 h
  obtain ⟨-, hwritten⟩ := ofLexemes_eq_ok_iff.1 hlexemes
  have hsublist := sublist_flatMap_written ds
  rw [← hwritten, List.sublist_map_iff] at hsublist
  obtain ⟨kept, hkept, hbare⟩ := hsublist
  obtain rfl := Lexeme.map_bare_eq_map_lexeme_iff.1 hbare.symm
  have hpairwise := (pairwise_offset_of_tokenize htext).sublist hkept
  rwa [List.pairwise_map] at hpairwise

/-! ### Undeclared names -/

/-- Tells that a declaration mentions, at any depth of brackets, a name that is not declared. -/
structure Dangling (ds : List Declaration) (d : Declaration) (reference : Reference) : Prop where
  mem : d ∈ ds
  mentions : ∃ alternative ∈ d.body, ∃ atom ∈ alternative, atom.Mentions reference
  undeclared : reference.name ∉ ds.map name

/-- How many declarations stand before the first one of a name. -/
def rank (ds : List Declaration) (n : String) : ℕ := (ds.map name).idxOf n

/-- Tells that a reference is the first one of the text that is not declared. -/
structure FirstDangling (ds : List Declaration) (d : Declaration) (reference : Reference) : Prop
    extends Dangling ds d reference where
  first : ∀ d' reference', Dangling ds d' reference' →
    reference' = reference ∨ reference.location.offset < reference'.location.offset

/-- Tells that, of the references that are not declared, a reference is the first one under the name
that is declared first. -/
structure LeastDangling (ds : List Declaration) (d : Declaration) (reference : Reference) : Prop
    extends Dangling ds d reference where
  least : ∀ d' reference', Dangling ds d' reference' →
    reference' = reference ∨ rank ds d.name < rank ds d'.name ∨
      d.name = d'.name ∧ reference.location.offset < reference'.location.offset

theorem dangling_iff :
    Dangling ds d reference ↔
      d ∈ ds ∧ reference ∈ d.references ∧ reference.name ∉ ds.map name := by
  rw [mem_references_iff]
  exact ⟨fun h => ⟨h.mem, h.mentions, h.undeclared⟩, fun ⟨hmem, h, hname⟩ => ⟨hmem, h, hname⟩⟩

theorem exists_dangling_iff : (∃ d reference, Dangling ds d reference) ↔ MentionsUndeclared ds := by
  simp only [dangling_iff, mentionsUndeclared_iff, exists_and_left]

/-- A reference stands in no two declarations of a text. -/
theorem Dangling.unique (h : ofChars text = .ok ds) (hd : Dangling ds d reference)
    (hd' : Dangling ds d' reference) : d = d' := by
  obtain ⟨hmem, hreference, -⟩ := dangling_iff.1 hd
  obtain ⟨hmem', hreference', -⟩ := dangling_iff.1 hd'
  have hpairwise := (List.pairwise_flatMap.1 (pairwise_references h)).2
  rcases eq_or_or_of_pairwise hpairwise hmem hmem' with heq | hlt | hlt
  · exact heq
  · exact absurd (hlt _ hreference _ hreference') (Nat.lt_irrefl _)
  · exact absurd (hlt _ hreference' _ hreference) (Nat.lt_irrefl _)

/-- The first reference of a text that is not declared, if there is one. -/
theorem exists_firstDangling (h : ofChars text = .ok ds) (hundeclared : MentionsUndeclared ds) :
    ∃ d reference, FirstDangling ds d reference := by
  obtain ⟨d', reference', hdangling⟩ := exists_dangling_iff.2 hundeclared
  have hmem {d : Declaration} {reference : Reference} (h : Dangling ds d reference) :
      reference ∈ ds.flatMap references ∧ decide (reference.name ∉ ds.map name) = true := by
    obtain ⟨hd, hreference, hname⟩ := dangling_iff.1 h
    exact ⟨List.mem_flatMap.2 ⟨d, hd, hreference⟩, decide_eq_true hname⟩
  cases hfind : (ds.flatMap references).find? fun r => decide (r.name ∉ ds.map name) with
  | none => exact absurd (hmem hdangling).2 (List.find?_eq_none.1 hfind _ (hmem hdangling).1)
  | some reference =>
    obtain ⟨d, hd, hreference⟩ := List.mem_flatMap.1 (List.mem_of_find?_eq_some hfind)
    have hname : reference.name ∉ ds.map name := by simpa using List.find?_some hfind
    refine ⟨d, reference, dangling_iff.2 ⟨hd, hreference, hname⟩, fun _ _ h' => ?_⟩
    exact eq_or_of_find?_eq_some (pairwise_references h) hfind (hmem h').1 (hmem h').2

/-! ### Ranks -/

theorem rank_cons (d : Declaration) (ds : List Declaration) (n : String) :
    rank (d :: ds) n = if d.name = n then 0 else rank ds n + 1 := by
  rw [rank, List.map_cons, List.idxOf_cons, rank]
  by_cases h : d.name = n
  · simp [h]
  · simp [h, beq_false_of_ne h]

/-- The first declarations stand in the order of the ranks. -/
theorem pairwise_rank_firsts (ds : List Declaration) :
    (firsts ds).Pairwise fun d d' => rank ds d.name < rank ds d'.name := by
  induction ds with
  | nil => exact List.Pairwise.nil
  | cons d ds ih =>
    rw [firsts, List.pairwise_cons]
    have hrank {d' : Declaration} (h : d' ∈ (firsts ds).filter (·.name ≠ d.name)) :
        rank (d :: ds) d'.name = rank ds d'.name + 1 := by
      have hne : d'.name ≠ d.name := by simpa using (List.mem_filter.1 h).2
      rw [rank_cons, if_neg (Ne.symm hne)]
    refine ⟨fun d' h => ?_, (ih.filter _).imp_of_mem fun h h' hlt => ?_⟩
    · rw [hrank h, rank_cons, if_pos rfl]
      exact Nat.succ_pos _
    · rw [hrank h, hrank h']
      exact Nat.succ_lt_succ hlt

/-- Every declared name has a first declaration. -/
theorem exists_mem_firsts (h : d ∈ ds) : ∃ first ∈ firsts ds, first.name = d.name := by
  induction ds with
  | nil => cases h
  | cons d' ds ih =>
    by_cases hname : d'.name = d.name
    · exact ⟨d', List.mem_cons_self, hname⟩
    · have hne : d ≠ d' := fun heq => hname (congrArg name heq.symm)
      obtain ⟨first, hfirst, heq⟩ := ih ((List.mem_cons.1 h).resolve_left hne)
      have hkept : first.name ≠ d'.name := heq ▸ Ne.symm hname
      refine ⟨first, List.mem_cons_of_mem _ (List.mem_filter.2 ⟨hfirst, ?_⟩), heq⟩
      simpa using hkept

/-- Where each name is declared once, the references of a text stand in the order of the ranks. -/
theorem offset_lt_of_rank_lt (h : ofChars text = .ok ds) (hnodup : (ds.map name).Nodup)
    (hd : Dangling ds d reference) (hd' : Dangling ds d' reference')
    (hlt : rank ds d.name < rank ds d'.name) :
    reference.location.offset < reference'.location.offset := by
  obtain ⟨hmem, hreference, -⟩ := dangling_iff.1 hd
  obtain ⟨hmem', hreference', -⟩ := dangling_iff.1 hd'
  have hranks := pairwise_rank_firsts ds
  rw [firsts_eq_self hnodup] at hranks
  have hoffsets := (List.pairwise_flatMap.1 (pairwise_references h)).2
  rcases eq_or_or_of_pairwise (hranks.and hoffsets) hmem hmem' with rfl | ⟨-, hbefore⟩ | ⟨hgt, -⟩
  · exact absurd hlt (Nat.lt_irrefl _)
  · exact hbefore _ hreference _ hreference'
  · exact absurd hlt (Nat.lt_asymm hgt)

/-! ### References of joined declarations -/

/-- The references of joined declarations: those of all declarations of the name first declared,
then those of the next one, and so on. -/
theorem flatMap_references_joined (ds : List Declaration) :
    (joined ds).flatMap references =
      (firsts ds).flatMap fun d => (ds.filter (·.name == d.name)).flatMap references := by
  rw [joined, List.flatMap_map]
  refine List.flatMap_congr fun d _ => ?_
  rw [references, alternativesOf, Atom.referencesAmong_eq_flatMap, List.flatMap_assoc]
  exact List.flatMap_congr fun d' _ => (Atom.referencesAmong_eq_flatMap d'.body).symm

theorem undefined?_eq_find? (merged : List Declaration) :
    undefined? merged =
      (merged.flatMap references).find? fun r => decide (r.name ∉ merged.map name) := by
  simp only [undefined?, Std.HashSet.contains_ofList, List.contains_eq_mem, decide_not]

/-- The first reference of merged declarations that is not declared comes, of those of the text,
first by the rank of the name it stands under. -/
theorem exists_leastDangling (h : ofChars text = .ok ds) (hmerge : merge ds = .ok merged)
    (hundefined : undefined? merged = some reference) :
    ∃ d, LeastDangling ds d reference := by
  have hranks := pairwise_rank_firsts ds
  obtain rfl := merge_eq_joined hmerge
  simp only [undefined?_eq_find?, mem_map_name_merge hmerge] at hundefined
  rw [flatMap_references_joined, List.find?_flatMap, List.findSome?_eq_some_iff] at hundefined
  obtain ⟨before, first, after, hfirsts, hfind, hbefore⟩ := hundefined
  rw [hfirsts] at hranks
  have hafter := (List.pairwise_cons.1 (List.pairwise_append.1 hranks).2.1).1
  have hname : reference.name ∉ ds.map name := by simpa using List.find?_some hfind
  obtain ⟨d, hd, hreference⟩ := List.mem_flatMap.1 (List.mem_of_find?_eq_some hfind)
  rw [List.mem_filter, beq_iff_eq] at hd
  refine ⟨d, dangling_iff.2 ⟨hd.1, hreference, hname⟩, fun d' reference' hdangling => ?_⟩
  obtain ⟨hd', hreference', hname'⟩ := dangling_iff.1 hdangling
  have hundeclared : decide (reference'.name ∉ ds.map name) = true := decide_eq_true hname'
  have hmem (first' : Declaration) (heq : first'.name = d'.name) :
      reference' ∈ (ds.filter (·.name == first'.name)).flatMap references :=
    List.mem_flatMap.2 ⟨d', List.mem_filter.2 ⟨hd', beq_iff_eq.2 heq.symm⟩, hreference'⟩
  obtain ⟨first', hfirst', heq⟩ := exists_mem_firsts hd'
  rw [hfirsts, List.mem_append, List.mem_cons] at hfirst'
  rcases hfirst' with hfirst' | rfl | hfirst'
  · -- A name that was declared before has no undeclared references.
    exact absurd hundeclared (List.find?_eq_none.1 (hbefore first' hfirst') _ (hmem first' heq))
  · have hsublist : ((ds.filter (·.name == first'.name)).flatMap references).Sublist
        (ds.flatMap references) := List.filter_sublist.flatMap references
    have hpairwise := (pairwise_references h).sublist hsublist
    rcases eq_or_of_find?_eq_some hpairwise hfind (hmem first' heq) hundeclared with hsame | hlt
    · exact Or.inl hsame
    · exact Or.inr (Or.inr ⟨hd.2.trans heq, hlt⟩)
  · rw [hd.2, ← heq]
    exact Or.inr (Or.inl (hafter first' hfirst'))

/-- The reference that comes first by rank is the first one of the text just if that one stands
under a name of least rank. -/
theorem LeastDangling.eq_first_iff (h : ofChars text = .ok ds)
    (hleast : LeastDangling ds d reference) (hfirst : FirstDangling ds d' reference') :
    reference = reference' ↔
      ∀ d'' reference'', Dangling ds d'' reference'' → rank ds d'.name ≤ rank ds d''.name := by
  constructor
  · rintro rfl d'' reference'' hdangling
    obtain rfl := hleast.toDangling.unique h hfirst.toDangling
    rcases hleast.least d'' reference'' hdangling with rfl | hlt | ⟨heq, -⟩
    · rw [hleast.toDangling.unique h hdangling]
    · exact Nat.le_of_lt hlt
    · rw [heq]
  · intro hrank
    have hle := hrank d reference hleast.toDangling
    rcases hleast.least d' reference' hfirst.toDangling with heq | hlt | ⟨-, hlt⟩
    · exact heq.symm
    · exact absurd hlt (Nat.not_lt_of_le hle)
    · rcases hfirst.first d reference hleast.toDangling with heq | hgt
      · exact heq
      · exact absurd hlt (Nat.lt_asymm hgt)

end Declaration

/-! ### The reported reference -/

/-- The error at a reference to a name that is not declared. -/
def Reference.notDefined (reference : Reference) : CompileError :=
  ⟨.undefinedSymbol, reference.location, "Symbol '" ++ reference.name ++ "' is not defined"⟩

theorem Reference.notDefined_injective : Function.Injective Reference.notDefined := by
  rintro ⟨n, location⟩ ⟨n', location'⟩ h
  simpa [notDefined, and_comm] using h

/-- An undeclared name is reported at the reference that was looked up first. -/
theorem Declaration.exists_undefined?_of_check {merged : List Declaration} {start : String}
    {endOfText : Location} {e : CompileError} (h : check merged start endOfText = .error e)
    (hfault : e.fault = .undefinedSymbol) :
    ∃ reference, undefined? merged = some reference ∧ e = reference.notDefined := by
  unfold check at h
  cases hundefined : undefined? merged with
  | some reference =>
    rw [hundefined] at h
    cases h
    exact ⟨reference, rfl, rfl⟩
  | none =>
    -- Only the start symbol can be missing.
    rw [hundefined] at h
    dsimp only at h
    split at h
    · cases h
    · cases h
      cases hfault

namespace Grammar

open Declaration

variable {text : List Char} {start : String} {ds merged : List Declaration}
  {reference : Reference} {e : CompileError}

theorem compile_of_undefined? (h : ofChars text = .ok ds) (hmerge : merge ds = .ok merged)
    (hundefined : undefined? merged = some reference) (start : String) :
    compile text start = .error reference.notDefined := by
  apply compile_of_check_error h hmerge
  rw [check, hundefined]
  rfl

/-- A compilation that fails with an undeclared name has merged the declarations of the text. -/
theorem exists_merge_of_undefinedSymbol (h : compile text start = .error e)
    (hfault : e.fault = .undefinedSymbol) :
    ∃ ds merged, ofChars text = .ok ds ∧ merge ds = .ok merged ∧
      check merged start (.endOf text) = .error e := by
  cases hread : ofChars text with
  | error e' =>
    cases h.symm.trans (compile_of_ofChars_error hread)
    cases hfault.symm.trans (ofChars_error hread).1
  | ok ds =>
    cases hmerge : merge ds with
    | error e' =>
      cases h.symm.trans (compile_of_merge_error hread hmerge)
      obtain ⟨-, later, -, -, -, -, rfl⟩ := merge_eq_error_iff.1 hmerge
      cases hfault
    | ok merged =>
      refine ⟨ds, merged, rfl, hmerge, ?_⟩
      cases hcheck : check merged start (.endOf text) with
      | error e' =>
        cases h.symm.trans (compile_of_check_error hread hmerge hcheck)
        rfl
      | ok u =>
        obtain ⟨g, hcompile⟩ := exists_compile_of_check hread hmerge hcheck
        cases h.symm.trans hcompile

end Grammar

open Declaration in
/-- **The reported undeclared name.** A compilation that fails with an undeclared name reports, of
all references at any depth of brackets to names that are not declared, the one that stands under
the name declared first, and of several under this name the first one. That is the first reference
of the text to a name that is not declared just if no other such reference stands under a name that
was declared before; in particular if each name is declared once. -/
theorem undeclared_reported {text : List Char} {start : String} {e : CompileError}
    (h : Grammar.compile text start = .error e) (hfault : e.fault = .undefinedSymbol) :
    ∃ ds, ofChars text = .ok ds ∧
      (∃ d reference, LeastDangling ds d reference ∧ e = reference.notDefined) ∧
      (∃ d reference, FirstDangling ds d reference) ∧
      ∀ d reference, FirstDangling ds d reference →
        (e = reference.notDefined ↔
          ∀ d' reference', Dangling ds d' reference' → rank ds d.name ≤ rank ds d'.name) ∧
        ((ds.map name).Nodup → e = reference.notDefined) := by
  obtain ⟨ds, merged, hread, hmerge, hcheck⟩ := Grammar.exists_merge_of_undefinedSymbol h hfault
  obtain ⟨reported, hundefined, rfl⟩ := exists_undefined?_of_check hcheck hfault
  obtain ⟨d, hleast⟩ := exists_leastDangling hread hmerge hundefined
  have hundeclared := exists_dangling_iff.1 ⟨d, reported, hleast.toDangling⟩
  refine ⟨ds, hread, ⟨d, reported, hleast, rfl⟩, exists_firstDangling hread hundeclared, ?_⟩
  intro d₁ first hfirst
  have hiff : reported.notDefined = first.notDefined ↔
      ∀ d' reference', Dangling ds d' reference' → rank ds d₁.name ≤ rank ds d'.name := by
    rw [Reference.notDefined_injective.eq_iff]
    exact hleast.eq_first_iff hread hfirst
  refine ⟨hiff, fun hnodup => hiff.2 fun d' reference' hdangling => ?_⟩
  by_contra hlt
  rw [Nat.not_le] at hlt
  have hoffset := offset_lt_of_rank_lt hread hnodup hdangling hfirst.toDangling hlt
  rcases hfirst.first d' reference' hdangling with rfl | hgt
  · exact Nat.lt_irrefl _ hoffset
  · exact Nat.lt_asymm hgt hoffset

/-! ### Names that are taken up again -/

namespace Declaration

theorem firstDangling_iff :
    FirstDangling ds d reference ↔
      (d ∈ ds ∧ reference ∈ d.references ∧ reference.name ∉ ds.map name) ∧
        ∀ d' ∈ ds, ∀ reference' ∈ d'.references, reference'.name ∉ ds.map name →
          reference' = reference ∨ reference.location.offset < reference'.location.offset := by
  rw [← dangling_iff]
  constructor
  · rintro ⟨hdangling, hfirst⟩
    exact ⟨hdangling, fun d' hd' r hr hname => hfirst d' r (dangling_iff.2 ⟨hd', hr, hname⟩)⟩
  · rintro ⟨hdangling, hfirst⟩
    refine ⟨hdangling, fun d' r h => ?_⟩
    obtain ⟨hd', hr, hname⟩ := dangling_iff.1 h
    exact hfirst d' hd' r hr hname

end Declaration

/-- A text that takes up its first name again. All declarations refer to an undeclared name. -/
def resumedText : List Char := "a = [ y ] ; b = z ; a = { y } ;".toList

/-- The tokens of `resumedText`. -/
def resumedLexemes : List Lexeme :=
  [⟨.identifier "a", ⟨0, 1, 1⟩⟩, ⟨.define, ⟨2, 1, 3⟩⟩, ⟨.openBracket, ⟨4, 1, 5⟩⟩,
    ⟨.identifier "y", ⟨6, 1, 7⟩⟩, ⟨.closeBracket, ⟨8, 1, 9⟩⟩, ⟨.semicolon, ⟨10, 1, 11⟩⟩,
    ⟨.identifier "b", ⟨12, 1, 13⟩⟩, ⟨.define, ⟨14, 1, 15⟩⟩, ⟨.identifier "z", ⟨16, 1, 17⟩⟩,
    ⟨.semicolon, ⟨18, 1, 19⟩⟩, ⟨.identifier "a", ⟨20, 1, 21⟩⟩, ⟨.define, ⟨22, 1, 23⟩⟩,
    ⟨.openBrace, ⟨24, 1, 25⟩⟩, ⟨.identifier "y", ⟨26, 1, 27⟩⟩, ⟨.closeBrace, ⟨28, 1, 29⟩⟩,
    ⟨.semicolon, ⟨30, 1, 31⟩⟩]

/-- The first declaration in `resumedText`. -/
def resumedFirst : Declaration :=
  ⟨"a", ⟨0, 1, 1⟩, [[.nested .optional [[.reference "y" ⟨6, 1, 7⟩]]]]⟩

/-- The declarations in `resumedText`. -/
def resumedDeclarations : List Declaration :=
  [resumedFirst, ⟨"b", ⟨12, 1, 13⟩, [[.reference "z" ⟨16, 1, 17⟩]]⟩,
    ⟨"a", ⟨20, 1, 21⟩, [[.nested .repetition [[.reference "y" ⟨26, 1, 27⟩]]]]⟩]

theorem ofChars_resumedText : Declaration.ofChars resumedText = .ok resumedDeclarations := by
  have htokens : tokenize resumedText = .ok resumedLexemes := by decide +kernel
  rw [Declaration.ofChars, htokens]
  rfl

theorem firstDangling_resumedDeclarations :
    Declaration.FirstDangling resumedDeclarations resumedFirst ⟨"y", ⟨6, 1, 7⟩⟩ :=
  Declaration.firstDangling_iff.2 ⟨⟨List.mem_cons_self, by decide, by decide⟩, by decide⟩

theorem undeclared_reported_resumed :
    ∃ e, Grammar.compile resumedText "a" = .error e ∧ e.fault = .undefinedSymbol ∧
      ¬(resumedDeclarations.map Declaration.name).Nodup ∧
        e = Reference.notDefined ⟨"y", ⟨6, 1, 7⟩⟩ := by
  have hmerge : Declaration.merge resumedDeclarations =
      .ok (Declaration.joined resumedDeclarations) := rfl
  obtain ⟨e, hcompile, hfault⟩ : Grammar.FailsWith resumedText "a" .undefinedSymbol := by
    have hundefined : Declaration.undefined? (Declaration.joined resumedDeclarations) =
        some ⟨"y", ⟨6, 1, 7⟩⟩ := by
      rw [Declaration.undefined?_eq_find?]
      decide
    exact ⟨_, Grammar.compile_of_undefined? ofChars_resumedText hmerge hundefined "a", rfl⟩
  obtain ⟨ds, hread, -, -, hreported⟩ := undeclared_reported hcompile hfault
  obtain rfl : ds = resumedDeclarations := Except.ok.inj (hread.symm.trans ofChars_resumedText)
  have hrank : Declaration.rank resumedDeclarations resumedFirst.name = 0 := by decide
  obtain ⟨hiff, -⟩ := hreported _ _ firstDangling_resumedDeclarations
  refine ⟨e, hcompile, hfault, by decide, hiff.2 fun _ _ _ => ?_⟩
  rw [hrank]
  exact Nat.zero_le _

/-- A text that takes up its first name again. The first undeclared name, `y`, stands in between. -/
def deferredText : List Char := "a = 'x' ; b = y ; a = z ;".toList

/-- The tokens of `deferredText`. -/
def deferredLexemes : List Lexeme :=
  [⟨.identifier "a", ⟨0, 1, 1⟩⟩, ⟨.define, ⟨2, 1, 3⟩⟩, ⟨.literal "x", ⟨4, 1, 5⟩⟩,
    ⟨.semicolon, ⟨8, 1, 9⟩⟩, ⟨.identifier "b", ⟨10, 1, 11⟩⟩, ⟨.define, ⟨12, 1, 13⟩⟩,
    ⟨.identifier "y", ⟨14, 1, 15⟩⟩, ⟨.semicolon, ⟨16, 1, 17⟩⟩, ⟨.identifier "a", ⟨18, 1, 19⟩⟩,
    ⟨.define, ⟨20, 1, 21⟩⟩, ⟨.identifier "z", ⟨22, 1, 23⟩⟩, ⟨.semicolon, ⟨24, 1, 25⟩⟩]

/-- The declaration in `deferredText` that refers to `y`. -/
def deferringDeclaration : Declaration := ⟨"b", ⟨10, 1, 11⟩, [[.reference "y" ⟨14, 1, 15⟩]]⟩

/-- The declarations in `deferredText`. -/
def deferredDeclarations : List Declaration :=
  [⟨"a", ⟨0, 1, 1⟩, [[.literal "x"]]⟩, deferringDeclaration,
    ⟨"a", ⟨18, 1, 19⟩, [[.reference "z" ⟨22, 1, 23⟩]]⟩]

theorem ofChars_deferredText : Declaration.ofChars deferredText = .ok deferredDeclarations := by
  have htokens : tokenize deferredText = .ok deferredLexemes := by decide +kernel
  rw [Declaration.ofChars, htokens]
  rfl

/-- The undeclared name under the first declared name is reported, although it stands later. -/
theorem compile_deferredText :
    Grammar.compile deferredText "a" = .error (Reference.notDefined ⟨"z", ⟨22, 1, 23⟩⟩) ∧
      Declaration.ofChars deferredText = .ok deferredDeclarations ∧
      Declaration.FirstDangling deferredDeclarations deferringDeclaration ⟨"y", ⟨14, 1, 15⟩⟩ := by
  refine ⟨?_, ofChars_deferredText, Declaration.firstDangling_iff.2
    ⟨⟨by simp [deferredDeclarations], by decide, by decide⟩, by decide⟩⟩
  have hmerge : Declaration.merge deferredDeclarations =
      .ok (Declaration.joined deferredDeclarations) := rfl
  have hundefined : Declaration.undefined? (Declaration.joined deferredDeclarations) =
      some ⟨"z", ⟨22, 1, 23⟩⟩ := by
    rw [Declaration.undefined?_eq_find?]
    decide
  exact Grammar.compile_of_undefined? ofChars_deferredText hmerge hundefined "a"

end Earley
