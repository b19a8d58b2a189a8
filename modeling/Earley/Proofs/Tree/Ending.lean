/-
  `Ending` — the search for a tree ends, without a bound on its stack.

  A search may go forwards and backwards over the same positions many times, and a goal that is
  refused may be asked for again elsewhere. It ends all the same, since each move leaves fewer
  choices; and as the goals on the stack are different ones, there are never more of them than
  there are non-terminals over spans. Neither is due to the room that a search is given: the
  checked moves do without it. The assembly does what the search does, so it ends as well
  (`assembly_ends`).
-/
import Earley.Proofs.Tree.Consistent

namespace Earley

namespace Search

variable {g : Grammar} {input : Array Char} {root : Goal} {s s' : Search}

/-- The goals on the stack are not more than there are. -/
theorem Sound.length_goals_le (hs : s.Sound g input root) :
    s.goals.length ≤ g.nonterms.size * (input.size + 1) * (input.size + 2) / 2 :=
  length_le_goalCount hs.nodup_goals hs.goals_sound

/-! ### Moves one after another -/

theorem moves?_succ (hg : g.WellFormed) (hs : s.Sound g input root) (count : Nat) :
    moves? (.ofInput g input) (count + 1) (.running s) =
      moves? (.ofInput g input) count (s.step (.ofInput g input)) := by
  rw [moves?, step?_eq hg hs]
  rfl

/-- A search that is finished does not go on. -/
theorem moves?_finished_ne_running {x : Extents} {count : Nat} {tree : Option ParseTree} :
    moves? x count (.finished tree) ≠ some (.running s) := by
  cases count with
  | zero => rintro ⟨⟩
  | succ count => rintro ⟨⟩

/-- What is known of a state is known of those that so many moves lead to. -/
theorem sound_moves? (hg : g.WellFormed) (hs : s.Sound g input root) {count : Nat}
    (h : moves? (.ofInput g input) count (.running s) = some (.running s')) :
    s'.Sound g input root := by
  induction count generalizing s with
  | zero =>
    obtain rfl : s = s' := Progress.running.inj (Option.some.inj h)
    exact hs
  | succ count ih =>
    rw [moves?_succ hg hs] at h
    have hsound := sound_step hg hs
    cases hstep : s.step (.ofInput g input) with
    | finished tree =>
      rw [hstep] at h
      exact absurd h moves?_finished_ne_running
    | running next =>
      rw [hstep] at h hsound
      exact ih hsound h

/-- From every sound state some number of moves leads to the end. The induction is along the moves,
each of which leaves fewer choices. -/
theorem exists_moves?_eq_finished (hg : g.WellFormed) (hs : s.Sound g input root) :
    ∃ count, moves? (.ofInput g input) count (.running s) =
      some (.finished (s.run (.ofInput g input))) := by
  fun_induction run (Extents.ofInput g input) s with
  | case1 s tree hstep =>
    refine ⟨1, ?_⟩
    rw [moves?_succ hg hs, hstep, moves?]
  | case2 s next hstep _ ih =>
    have hsound := sound_step hg hs
    rw [hstep] at hsound
    obtain ⟨count, hcount⟩ := ih hsound
    refine ⟨count + 1, ?_⟩
    rw [moves?_succ hg hs, hstep]
    exact hcount

end Search

/-- A tree that a chart gives is what the search ends with. -/
theorem Chart.tree?_eq_some {c : Chart} {tree : ParseTree} (h : c.tree = .ok tree) :
    c.tree? = some tree := by
  rw [Chart.tree] at h
  cases hrule : c.acceptingRule? with
  | none =>
    rw [hrule] at h
    cases h
  | some rule =>
    rw [hrule, Option.bind_some] at h
    cases htree : c.tree? with
    | none =>
      rw [htree] at h
      cases h
    | some tree' =>
      rw [htree] at h
      rw [Except.ok.inj h]

/-- Where the start symbol matches the input, the search ends with the tree of the chart. -/
theorem Chart.exists_tree_eq_run {g : Grammar} (hg : g.WellFormed) (input : Array Char)
    (hgenerates : g.Generates [.nonterm g.start] input.toList) :
    ∃ tree, (Chart.ofInput g input).tree = .ok tree ∧
      Search.run (.ofInput g input) (.start (.ofInput g input) (Chart.ofInput g input).goal) =
        some tree := by
  obtain ⟨tree, htree, -⟩ := Chart.exists_tree_of_generates hg input hgenerates
  exact ⟨tree, htree, Chart.tree?_eq_some htree⟩

/-- **The search for a tree ends.** With every number checked and no bound on the stack, some number
of moves leads to the tree of an accepted input, whatever cycles the grammar has; and on the way
there the stack never holds more goals than there are. -/
theorem search_ends {steps : List Step} {start : String} {g : Grammar}
    (h : Grammar.build steps start = .ok g) {input : List Char} {chart : Chart}
    (hparse : g.parse input = .ok chart) :
    ∃ first, Search.start? (.ofChart chart) chart.goal = some first ∧
      (∃ count tree, chart.tree = .ok tree ∧
        Search.moves? (.ofChart chart) count (.running first) = some (.finished (some tree))) ∧
      ∀ count s, Search.moves? (.ofChart chart) count (.running first) = some (.running s) →
        s.goals.length ≤ g.nonterms.size * (input.length + 1) * (input.length + 2) / 2 := by
  have hg := Grammar.wellFormed_of_build h
  have hgenerates := Grammar.generates_of_parse hg hparse
  obtain rfl := Grammar.parse_eq_ofInput hparse
  have hfirst := Search.start?_eq hg (Chart.ofInput g input.toArray).goal
    (Chart.spans_goal hgenerates)
  have hsound := Search.sound_start (Chart.sound_goal hg input.toArray)
  refine ⟨_, hfirst, ?_, fun count s hmoves => ?_⟩
  · obtain ⟨tree, htree, hrun⟩ := Chart.exists_tree_eq_run hg input.toArray hgenerates
    obtain ⟨count, hcount⟩ := Search.exists_moves?_eq_finished hg hsound
    rw [hrun] at hcount
    exact ⟨count, tree, htree, hcount⟩
  · exact (Search.sound_moves? hg hsound hmoves).length_goals_le

/-- The search for the tree of an input of an ambiguous and cyclic grammar. -/
theorem search_ends_doublingSteps :
    ∃ g chart first, Grammar.build Grammar.doublingSteps "S" = .ok g ∧
      g.parse ['a', 'a'] = .ok chart ∧
      Search.start? (.ofChart chart) chart.goal = some first ∧
      (∃ count tree, chart.tree = .ok tree ∧
        Search.moves? (.ofChart chart) count (.running first) = some (.finished (some tree))) ∧
      ∀ count s, Search.moves? (.ofChart chart) count (.running first) = some (.running s) →
        s.goals.length ≤ g.nonterms.size * 3 * 4 / 2 := by
  obtain ⟨g, hbuild, hparse⟩ := Grammar.exists_parse_doublingSteps
  obtain ⟨first, hfirst, hend, hbound⟩ := search_ends hbuild hparse
  exact ⟨g, _, first, hbuild, hparse, hfirst, hend, hbound⟩

/-- **The assembly of a tree ends**, with the same tree: some number of turns leads to the tree of
an accepted input, and on the way there the stack never holds more nodes than there are goals. -/
theorem assembly_ends {steps : List Step} {start : String} {g : Grammar}
    (h : Grammar.build steps start = .ok g) {input : List Char} {chart : Chart}
    (hparse : g.parse input = .ok chart) :
    (∃ count tree, chart.tree = .ok tree ∧
      Assembly.moves? (.ofChart chart) count (.running (.start chart.goal)) =
        some (.finished (some tree))) ∧
      ∀ a, Assembly.Reached (.ofChart chart) (.start chart.goal) a →
        a.stack.length ≤ g.nonterms.size * (input.length + 1) * (input.length + 2) / 2 := by
  have hg := Grammar.wellFormed_of_build h
  have hgenerates := Grammar.generates_of_parse hg hparse
  obtain rfl := Grammar.parse_eq_ofInput hparse
  have hroot := Chart.sound_goal hg input.toArray
  constructor
  · obtain ⟨tree, htree, hrun⟩ := Chart.exists_tree_eq_run hg input.toArray hgenerates
    obtain ⟨count, hcount⟩ := Assembly.exists_moves?_eq_finished hg hroot
    rw [hrun] at hcount
    exact ⟨count, tree, htree, hcount⟩
  · intro a hreached
    obtain ⟨s, hs, hsimulates⟩ := Assembly.exists_simulates_of_reached hg hroot hreached
    have hlength := hs.length_goals_le
    rwa [← hsimulates.goals_eq, Assembly.goals, List.length_map] at hlength

end Earley
