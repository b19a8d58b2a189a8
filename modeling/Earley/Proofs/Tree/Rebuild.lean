/-
  `Rebuild` — every input in the language has its tree.

  The chart of an input in the language gives the preferred tree of the start symbol
  (`exists_tree_of_generates`): the search for it ends with the answer to its first goal, which
  cannot be that there is none, since whatever is derived has an admissible tree. So checking an
  input has two outcomes only, and `Verdict.defect` is not one of them.
-/
import Earley.Proofs.Tree.Search
import Earley.Verdict

namespace Earley

namespace Chart

variable {g : Grammar} {input : Array Char}

theorem sound_goal (hg : g.WellFormed) (input : Array Char) :
    (ofInput g input).goal.Sound g input :=
  ⟨hg.start_lt, .start, Nat.zero_le _, Nat.le_refl _⟩

theorem answer_tree? (hg : g.WellFormed) (input : Array Char) :
    (ofInput g input).goal.Answer g input [] (ofInput g input).tree? :=
  Search.answers_run hg (Search.sound_start (sound_goal hg input))

/-- An input in the language is what the start symbol spans. -/
theorem spans_goal (h : g.Generates [.nonterm g.start] input.toList) :
    g.Spans input [.nonterm g.start] 0 input.size :=
  h.spans (Nat.zero_le _) (Nat.le_refl _) (slice_zero_size input).symm

/-- The chart of an input in the language gives the preferred tree. -/
theorem exists_tree_of_generates (hg : g.WellFormed) (input : Array Char)
    (h : g.Generates [.nonterm g.start] input.toList) :
    ∃ tree, (ofInput g input).tree = .ok tree ∧
      Preferred g input [] [.nonterm g.start] 0 input.size [tree] := by
  have hspans := spans_goal h
  have hanswer := answer_tree? hg input
  obtain ⟨rule, hrule⟩ := Option.ne_none_iff_exists'.1 ((acceptingRule?_ne_none_iff hg input).2 h)
  rw [tree, hrule]
  simp only [Option.bind_some]
  cases htree : (ofInput g input).tree? with
  | some tree =>
    rw [htree] at hanswer
    exact ⟨tree, rfl, hanswer⟩
  | none =>
    rw [htree] at hanswer
    exact absurd (growable_of_spans hg hspans) hanswer

end Chart

variable {g : Grammar} {input : List Char}

theorem Grammar.parse_eq_ofInput {chart : Chart} (h : g.parse input = .ok chart) :
    chart = .ofInput g input.toArray := by
  rw [parse] at h
  split at h
  · exact (Except.ok.inj h).symm
  · cases h

/-- An input that has a chart is in the language. -/
theorem Grammar.generates_of_parse (hg : g.WellFormed) {chart : Chart}
    (h : g.parse input = .ok chart) : g.Generates [.nonterm g.start] input.toArray.toList := by
  obtain rfl := parse_eq_ofInput h
  exact (parse_eq_ok_iff hg).1 h

/-- A tree of an input is the preferred one. -/
theorem Grammar.preferred_of_parseTree (hg : g.WellFormed) {tree : ParseTree}
    (h : g.parseTree input = .ok tree) :
    Preferred g input.toArray [] [.nonterm g.start] 0 input.length [tree] := by
  cases hparse : g.parse input with
  | error e =>
    rw [parseTree, hparse] at h
    cases h
  | ok chart =>
    have hgenerates := generates_of_parse hg hparse
    obtain rfl := parse_eq_ofInput hparse
    obtain ⟨tree', htree', hpreferred⟩ :=
      Chart.exists_tree_of_generates hg input.toArray hgenerates
    rw [parseTree, hparse] at h
    obtain rfl := Except.ok.inj (htree'.symm.trans h)
    simpa using hpreferred

theorem Grammar.exists_parseTree (hg : g.WellFormed) (h : g.Generates [.nonterm g.start] input) :
    ∃ tree, g.parseTree input = .ok tree := by
  obtain ⟨tree, htree, -⟩ :=
    Chart.exists_tree_of_generates hg input.toArray (by simpa using h)
  rw [parseTree, (parse_eq_ok_iff hg).2 h]
  exact ⟨tree, htree⟩

/-- An input is valid with the tree that there is for it. -/
theorem Grammar.validate_eq_valid_iff {tree : ParseTree} :
    g.validate input = .valid tree ↔ g.parseTree input = .ok tree := by
  rw [validate, Verdict.ofChart, parseTree, parse]
  cases (Chart.ofInput g input.toArray).acceptingRule? with
  | none => simp [bind, Except.bind]
  | some rule =>
    cases htree : (Chart.ofInput g input.toArray).tree with
    | error e => simp [bind, Except.bind, htree]
    | ok tree' => simp [bind, Except.bind, htree]

/-- **There are no defects.** An input is valid exactly if the start symbol derives it, and
otherwise it is invalid for want of a derivation; it never comes out as a defect. In other words,
a chart that is given out always has a tree. -/
theorem validate_decides {steps : List Step} {start : String} {g : Grammar}
    (h : Grammar.build steps start = .ok g) (input : List Char) :
    ((∃ tree, g.validate input = .valid tree) ↔ g.Yields [.nonterm g.start] input) ∧
      ((∃ position location found expected,
          g.validate input = .invalid (.noDerivation position location found expected)) ↔
        ¬g.Yields [.nonterm g.start] input) ∧
      (∀ e, g.validate input ≠ .defect e) ∧
      ∀ chart, g.parse input = .ok chart → ∃ tree, chart.tree = .ok tree := by
  have hg := Grammar.wellFormed_of_build h
  have haccept := Chart.acceptingRule?_ne_none_iff hg input.toArray
  rw [List.toList_toArray, ← Grammar.yields_iff_generates] at haccept
  have htree : g.Yields [.nonterm g.start] input →
      ∃ tree, (Chart.ofInput g input.toArray).tree = .ok tree := by
    rw [Grammar.yields_iff_generates]
    intro hgenerates
    obtain ⟨tree, htree, -⟩ :=
      Chart.exists_tree_of_generates hg input.toArray (by simpa using hgenerates)
    exact ⟨tree, htree⟩
  have hchart : ∀ chart, g.parse input = .ok chart → ∃ tree, chart.tree = .ok tree := by
    intro chart hparse
    obtain rfl := Grammar.parse_eq_ofInput hparse
    exact htree (Grammar.yields_iff_generates.2 ((Grammar.parse_eq_ok_iff hg).1 hparse))
  rw [Grammar.validate, Verdict.ofChart, ← haccept]
  cases hrule : (Chart.ofInput g input.toArray).acceptingRule? with
  | none => simpa [Chart.rejection] using hchart
  | some rule =>
    obtain ⟨tree, htree⟩ := htree (haccept.1 (by rw [hrule]; exact Option.some_ne_none rule))
    simpa [htree] using hchart

/-- An input of an ambiguous and cyclic grammar. -/
theorem validate_decides_doublingSteps :
    ∃ g, Grammar.build Grammar.doublingSteps "S" = .ok g ∧
      (∃ tree, g.validate ['a', 'a'] = .valid tree) ∧
      ¬(∃ position location found expected,
        g.validate ['a', 'a'] = .invalid (.noDerivation position location found expected)) ∧
      (∀ e, g.validate ['a', 'a'] ≠ .defect e) ∧
      ∃ chart tree, g.parse ['a', 'a'] = .ok chart ∧ chart.tree = .ok tree := by
  obtain ⟨g, hbuild, hstart, -, hrules⟩ := Grammar.exists_build_doublingSteps
  have hgenerates := Grammar.generates_doubling hstart hrules
  have hyields := Grammar.yields_iff_generates.2 hgenerates
  have hparse := (Grammar.parse_eq_ok_iff (Grammar.wellFormed_of_build hbuild)).2 hgenerates
  obtain ⟨hvalid, hinvalid, hdefect, hchart⟩ := validate_decides hbuild ['a', 'a']
  obtain ⟨tree, htree⟩ := hchart _ hparse
  exact ⟨g, hbuild, hvalid.2 hyields, fun h => hinvalid.1 h hyields, hdefect, _, tree, hparse,
    htree⟩

end Earley
