/-
  `Search` — the search for a tree finds the preferred one.

  Of a goal on the stack it is known that the rules that were tried have no admissible trees, and
  that the layout of its current rule is sound (`Frame.Sound`, `Waiting.Sound`); of the stack as a
  whole that the goals are the active ones, and that there is room for all others (`Search.Sound`).
  Each move keeps that (`sound_step`), and so the search ends with the preferred tree of its first
  goal, or with none if that has no admissible tree (`answers_run`).

  The goals on a stack are different ones, and so the stack never holds more of them than there
  are (`length_le_goalCount`): a goal is refused only because it is on the stack already.
-/
import Earley.Proofs.Tree.Layout
import Earley.Tree.Rebuild
import Mathlib.Data.List.Perm.Subperm

namespace Earley

/-! ### Goals -/

/-- Tells that a goal is a non-terminal that may begin where it begins, over a part of the
input. -/
structure Goal.Sound (g : Grammar) (input : Array Char) (goal : Goal) : Prop where
  nonterm_lt : goal.nonterm < g.nonterms.size
  begins : g.Begins input goal.nonterm goal.start
  start_le : goal.start ≤ goal.stop
  stop_le : goal.stop ≤ input.size

/-- The goals over the spans of an input of `length` characters. -/
def Goal.all (g : Grammar) (length : Nat) : List Goal :=
  (List.range g.nonterms.size).flatMap fun id =>
    (List.range (length + 1)).flatMap fun stop =>
      (List.range (stop + 1)).map fun start => ⟨id, start, stop⟩

theorem Goal.Sound.mem_all {g : Grammar} {input : Array Char} {goal : Goal}
    (h : goal.Sound g input) : goal ∈ Goal.all g input.size := by
  refine List.mem_flatMap.2 ⟨goal.nonterm, List.mem_range.2 h.nonterm_lt, ?_⟩
  refine List.mem_flatMap.2 ⟨goal.stop, List.mem_range.2 (Nat.lt_succ_of_le h.stop_le), ?_⟩
  exact List.mem_map.2 ⟨goal.start, List.mem_range.2 (Nat.lt_succ_of_le h.start_le), rfl⟩

theorem sum_map_succ_range (n : Nat) :
    ((List.range n).map fun k => k + 1).sum * 2 = n * (n + 1) := by
  induction n with
  | zero => rfl
  | succ n ih =>
    rw [List.range_succ, List.map_append, List.sum_append_nat, Nat.add_mul, ih]
    simp only [List.map_cons, List.map_nil, List.sum_cons, List.sum_nil, Nat.add_mul, Nat.mul_add]
    omega

theorem Goal.length_all (g : Grammar) (length : Nat) :
    (Goal.all g length).length = Search.goalCount g length := by
  have hspans := sum_map_succ_range (length + 1)
  rw [Goal.all, Search.goalCount]
  simp only [List.length_flatMap, List.length_map, List.length_range, List.map_const',
    List.sum_replicate_nat]
  generalize ((List.range (length + 1)).map fun stop => stop + 1).sum = count at hspans ⊢
  rw [Nat.mul_assoc, ← hspans, ← Nat.mul_assoc, Nat.mul_div_cancel _ (by decide)]

/-- Different goals are not more than there are. -/
theorem length_le_goalCount {g : Grammar} {input : Array Char} {goals : List Goal}
    (hnodup : goals.Nodup) (hgoals : ∀ goal ∈ goals, goal.Sound g input) :
    goals.length ≤ Search.goalCount g input.size := by
  rw [← Goal.length_all]
  exact (hnodup.subperm fun goal hgoal => (hgoals goal hgoal).mem_all).length_le

/-- What a goal may be answered with: its preferred tree, or none if it has no admissible one. -/
def Goal.Answer (g : Grammar) (input : Array Char) (above : List Goal) (goal : Goal) :
    Option ParseTree → Prop
  | some tree =>
    Preferred g input above [.nonterm goal.nonterm] goal.start goal.stop [tree]
  | none => ¬Growable g input above [.nonterm goal.nonterm] goal.start goal.stop

/-- A non-terminal that comes next, up to one of the ends that are left, is a goal. -/
theorem Layout.Sound.goal_next {g : Grammar} {input : Array Char} {above : List Goal} {goal : Goal}
    {l : Layout} {stops : List Nat} {stop id : Nat} {todo : List Symbol} (hg : g.WellFormed)
    (hgoal : goal.Sound g input) (h : l.Sound g input above goal (stop :: stops))
    (htodo : l.todo = .nonterm id :: todo) : Goal.Sound g input ⟨id, l.pos, stop⟩ := by
  have hspans := (h.ends _ _ htodo).spans stop List.mem_cons_self
  obtain ⟨hle, hstop, -⟩ := hspans.generates (h.pos_le hg hgoal.begins)
  obtain ⟨rule, hrule, rfl, -⟩ := Grammar.spans_nonterm_iff.1 hspans
  exact ⟨hg.head_rule_lt hrule, h.begins hg hgoal.begins htodo, hle, hstop⟩

/-! ### The goals on the stack -/

/-- Tells that the rules of a goal before `current` and `untried` have no admissible trees. -/
def RulesLeft (g : Grammar) (input : Array Char) (above : List Goal) (goal : Goal)
    (current untried : List Nat) : Prop :=
  ∃ tried, g.alternativesOf goal.nonterm = tried ++ current ++ untried ∧
    ∀ rule ∈ tried, ¬Growable g input (goal :: above) (g.rule rule).body.toList
      goal.start goal.stop

/-- What is known of the goal that is worked on, on top of those of `above`. -/
structure Frame.Sound (g : Grammar) (input : Array Char) (above : List Goal) (f : Frame) :
    Prop where
  goal : f.goal.Sound g input
  fresh : f.goal ∉ above
  rules : RulesLeft g input above f.goal (f.layout.map Layout.rule).toList f.untried
  layout : ∀ l, f.layout = some l → l.Sound g input (f.goal :: above) f.goal l.ends.toList

/-- What is known of a goal that waits for the tree of `next`, on top of those of `above`. -/
structure Waiting.Sound (g : Grammar) (input : Array Char) (above : List Goal) (next : Goal)
    (w : Waiting) : Prop where
  goal : w.goal.Sound g input
  fresh : w.goal ∉ above
  rules : RulesLeft g input above w.goal [w.layout.rule] w.untried
  layout : w.layout.Sound g input (w.goal :: above) w.goal (w.stop :: w.layout.ends.toList)
  next_eq : ∃ id todo, w.layout.todo = .nonterm id :: todo ∧ next = ⟨id, w.layout.pos, w.stop⟩

/-- What is known of the goals that wait, the nearest one for `next`. -/
def BelowSound (g : Grammar) (input : Array Char) : Goal → List Waiting → Prop
  | _, [] => True
  | next, w :: below =>
    w.Sound g input (below.map Waiting.goal) next ∧ BelowSound g input w.goal below

/-- What is known of a search for a tree of `root`. -/
structure Search.Sound (g : Grammar) (input : Array Char) (root : Goal) (s : Search) : Prop where
  top : s.top.Sound g input (s.below.map Waiting.goal)
  below : BelowSound g input s.top.goal s.below
  active : ∀ goal, goal ∈ s.active ↔ goal ∈ s.top.goal :: s.below.map Waiting.goal
  room : s.room + s.below.length + 1 = Search.goalCount g input.size
  root : (s.top.goal :: s.below.map Waiting.goal).getLast? = some root

/-- What is known after a move. -/
def Progress.Sound (g : Grammar) (input : Array Char) (root : Goal) : Progress → Prop
  | .running s => s.Sound g input root
  | .finished tree => root.Answer g input [] tree

section Rules

variable {g : Grammar} {input : Array Char} {above : List Goal} {goal : Goal} {rule : Nat}
  {current untried : List Nat}

theorem rulesLeft_start : RulesLeft g input above goal [] (g.alternativesOf goal.nonterm) :=
  ⟨[], rfl, fun _ hrule => absurd hrule List.not_mem_nil⟩

theorem RulesLeft.mem_alternativesOf (h : RulesLeft g input above goal current (rule :: untried)) :
    rule ∈ g.alternativesOf goal.nonterm := by
  obtain ⟨tried, heq, -⟩ := h
  rw [heq]
  exact List.mem_append_right _ List.mem_cons_self

/-- The next rule is taken up. -/
theorem RulesLeft.take (h : RulesLeft g input above goal [] (rule :: untried)) :
    RulesLeft g input above goal [rule] untried := by
  obtain ⟨tried, heq, htried⟩ := h
  exact ⟨tried, by rw [heq]; simp, htried⟩

/-- A rule without admissible trees is done with. -/
theorem RulesLeft.drop (h : RulesLeft g input above goal [rule] untried)
    (hrule : ¬Growable g input (goal :: above) (g.rule rule).body.toList goal.start goal.stop) :
    RulesLeft g input above goal [] untried := by
  obtain ⟨tried, heq, htried⟩ := h
  refine ⟨tried ++ [rule], by rw [heq]; simp, fun rule' hrule' => ?_⟩
  rcases List.mem_append.1 hrule' with hmem | hmem
  · exact htried rule' hmem
  · rw [List.mem_singleton] at hmem
    rwa [hmem]

/-- When all rules are done with, there is no tree. -/
theorem RulesLeft.not_growable (h : RulesLeft g input above goal [] []) :
    ¬Growable g input above [.nonterm goal.nonterm] goal.start goal.stop := by
  obtain ⟨tried, heq, htried⟩ := h
  rw [List.append_nil, List.append_nil] at heq
  rw [growable_nonterm_iff, heq]
  rintro ⟨-, rule, hrule, hbody⟩
  exact htried rule hrule hbody

end Rules

/-! ### The moves -/

namespace Search

variable {g : Grammar} {input : Array Char} {root : Goal} {s : Search} {l : Layout}

/-- The goals of a stack are different ones. -/
theorem nodup_below {next : Goal} {below : List Waiting} (h : BelowSound g input next below) :
    (below.map Waiting.goal).Nodup ∧ ∀ goal ∈ below.map Waiting.goal, goal.Sound g input := by
  induction below generalizing next with
  | nil => exact ⟨List.nodup_nil, fun _ hgoal => absurd hgoal List.not_mem_nil⟩
  | cons w below ih =>
    obtain ⟨hw, hbelow⟩ := h
    obtain ⟨hnodup, hgoals⟩ := ih hbelow
    rw [List.map_cons]
    exact ⟨List.nodup_cons.2 ⟨hw.fresh, hnodup⟩, List.forall_mem_cons.2 ⟨hw.goal, hgoals⟩⟩

/-- There is room for another goal. -/
theorem Sound.room_pos (hs : s.Sound g input root) {goal : Goal} (hgoal : goal.Sound g input)
    (hnew : goal ∉ s.top.goal :: s.below.map Waiting.goal) : 0 < s.room := by
  obtain ⟨hnodup, hgoals⟩ := nodup_below hs.below
  -- With the new goal on top, the goals would still be different ones.
  have hle := @length_le_goalCount g input _
    (List.nodup_cons.2 ⟨hnew, List.nodup_cons.2 ⟨hs.top.fresh, hnodup⟩⟩)
    (List.forall_mem_cons.2 ⟨hgoal, List.forall_mem_cons.2 ⟨hs.top.goal, hgoals⟩⟩)
  have hroom := hs.room
  simp only [List.length_cons, List.length_map] at hle
  omega

/-- The work on the top goal goes on. -/
theorem Sound.work (hs : s.Sound g input root) {untried : List Nat} {layout : Option Layout}
    (hrules : RulesLeft g input (s.below.map Waiting.goal) s.top.goal
      (layout.map Layout.rule).toList untried)
    (hlayout : ∀ l, layout = some l →
      l.Sound g input (s.top.goal :: s.below.map Waiting.goal) s.top.goal l.ends.toList) :
    Sound g input root { s with top := ⟨s.top.goal, untried, layout⟩ } where
  top := ⟨hs.top.goal, hs.top.fresh, hrules, hlayout⟩
  below := hs.below
  active := hs.active
  room := hs.room
  root := hs.root

/-- The work goes on with another layout of the same rule. -/
theorem Sound.relay (hs : s.Sound g input root) (hl : s.top.layout = some l) {l' : Layout}
    (hrule : l'.rule = l.rule)
    (hsound : l'.Sound g input (s.top.goal :: s.below.map Waiting.goal) s.top.goal
      l'.ends.toList) : (s.relay (some l')).Sound g input root := by
  have hrules := hs.top.rules
  rw [hl] at hrules
  refine hs.work ?_ ?_
  · rw [Option.map_some, hrule]
    exact hrules
  · rintro _ ⟨⟩
    exact hsound

/-- The goal that waits goes on with the answer. -/
theorem sound_resume (hg : g.WellFormed) {above : List Goal} {next : Goal} {w : Waiting}
    (hw : w.Sound g input above next) {tree : Option ParseTree}
    (htree : next.Answer g input (w.goal :: above) tree) :
    (w.resume (Extents.ofInput g input) tree).Sound g input above := by
  obtain ⟨id, todo, htodo, rfl⟩ := hw.next_eq
  cases tree with
  | none =>
    refine ⟨hw.goal, hw.fresh, hw.rules, ?_⟩
    rintro _ ⟨⟩
    exact hw.layout.useUp htodo fun hgrowable => htree hgrowable.1
  | some tree =>
    refine ⟨hw.goal, hw.fresh, ?_, ?_⟩
    · have hrules := hw.rules
      rw [Waiting.resume, Layout.lay, htodo]
      exact hrules
    · rintro _ ⟨⟩
      exact hw.layout.lay hg hw.goal.begins htodo htree

theorem sound_deliver (hg : g.WellFormed) (hs : s.Sound g input root) {tree : Option ParseTree}
    (htree : s.top.goal.Answer g input (s.below.map Waiting.goal) tree) :
    (s.deliver (Extents.ofInput g input) tree).Sound g input root := by
  have hroot := hs.root
  have hbelow := hs.below
  have hroom := hs.room
  have hactive := hs.active
  have hfresh := hs.top.fresh
  rw [deliver]
  split
  · -- Nothing waits, so the goal on top is the first one.
    rename_i heq
    rw [heq] at hroot htree
    rw [List.map_nil, List.getLast?_singleton, Option.some.injEq] at hroot
    rwa [hroot] at htree
  · rename_i w below heq
    rw [heq] at hroot hbelow hroom hactive hfresh htree
    obtain ⟨hw, hbelow⟩ := hbelow
    have hresume := sound_resume hg hw htree
    have hgoal : (w.resume (Extents.ofInput g input) tree).goal = w.goal := by cases tree <;> rfl
    refine ⟨hresume, by rwa [hgoal], fun goal => ?_, ?_, ?_⟩
    · -- The goal that is answered was not active a second time.
      rw [Std.HashSet.mem_erase, hactive, hgoal, List.mem_cons, List.map_cons]
      constructor
      · rintro ⟨hne, rfl | hmem⟩
        · simp at hne
        · exact hmem
      · intro hmem
        refine ⟨?_, Or.inr hmem⟩
        rw [beq_eq_false_iff_ne]
        rintro rfl
        exact hfresh hmem
    · rw [List.length_cons] at hroom
      simp only
      omega
    · rw [hgoal]
      rwa [List.map_cons, List.getLast?_cons_cons] at hroot

/-- What cannot be laid to the end is taken back. -/
theorem sound_takeBack (hs : s.Sound g input root) (hl : s.top.layout = some l)
    (hnone : ¬Growable g input (s.top.goal :: s.below.map Waiting.goal) l.todo l.pos
      s.top.goal.stop) : (s.relay l.takeBack).Sound g input root := by
  have hsound := hs.top.layout l hl
  cases hback : l.takeBack with
  | some l' =>
    obtain ⟨hrule, hsound'⟩ := hsound.takeBack hnone hback
    exact hs.relay hl hrule hsound'
  | none =>
    have hrules := hs.top.rules
    rw [hl] at hrules
    refine hs.work (hrules.drop (hsound.not_growable_of_takeBack hnone hback)) ?_
    rintro _ ⟨⟩

theorem sound_tryRule (hg : g.WellFormed) (hs : s.Sound g input root)
    (hnone : s.top.layout = none) :
    (s.tryRule (Extents.ofInput g input)).Sound g input root := by
  have hrules := hs.top.rules
  rw [hnone] at hrules
  rw [tryRule]
  split
  · rename_i heq
    rw [heq] at hrules
    exact sound_deliver hg hs hrules.not_growable
  · rename_i rule untried heq
    rw [heq] at hrules
    have hmem := hrules.mem_alternativesOf
    obtain ⟨hlt, hhead⟩ := hg.mem_alternativesOf_iff.1 hmem
    by_cases hspans : (Extents.ofInput g input).chart.spans rule s.top.goal.start s.top.goal.stop
    · simp only [hspans, if_true]
      refine hs.work hrules.take ?_
      rintro _ ⟨⟩
      exact Layout.Sound.ofRule hg hs.top.goal.begins hmem
    · -- A rule that does not span the goal in the chart has no trees at all.
      simp only [hspans, Bool.false_eq_true, if_false]
      refine hs.work (hrules.take.drop fun hgrowable => hspans ?_) ?_
      · refine (Chart.spans_ofInput_iff hg hlt).2 ⟨?_, hgrowable.spans hg⟩
        rw [hhead]
        exact hs.top.goal.begins
      · rintro _ ⟨⟩

/-- A non-terminal that comes next becomes a goal of its own; it is refused only if that goal is on
the stack, in which case it has no admissible tree. -/
theorem sound_pursue (hg : g.WellFormed) (hs : s.Sound g input root)
    (hl : s.top.layout = some l) {l' : Layout} (hrule : l'.rule = l.rule) {id stop : Nat}
    {todo : List Symbol} (htodo : l'.todo = .nonterm id :: todo)
    (hsound : l'.Sound g input (s.top.goal :: s.below.map Waiting.goal) s.top.goal
      (stop :: l'.ends.toList)) :
    (s.pursue (Extents.ofInput g input) l' ⟨id, l'.pos, stop⟩).Sound g input root := by
  have hgoal := hsound.goal_next hg hs.top.goal htodo
  have hrules := hs.top.rules
  rw [hl, Option.map_some, ← hrule] at hrules
  by_cases hactive : (⟨id, l'.pos, stop⟩ : Goal) ∈ s.active
  · -- A tree for the goal would repeat it.
    rw [pursue, if_pos (by simp [hactive])]
    refine hs.relay hl hrule (hsound.useUp htodo fun hgrowable => ?_)
    exact (growable_nonterm_iff.1 hgrowable.1).1 ((hs.active _).1 hactive)
  · -- There is room, so the goal is put on top and its rules are still to be tried.
    have hnew := fun hmem => hactive ((hs.active _).2 hmem)
    have hpos := hs.room_pos hgoal hnew
    have hroom := hs.room
    rw [pursue, if_neg (by simp [hactive]; omega)]
    refine ⟨⟨hgoal, hnew, rulesLeft_start, ?_⟩, ⟨?_, hs.below⟩, fun goal => ?_, ?_, ?_⟩
    · rintro _ ⟨⟩
    · exact ⟨hs.top.goal, hs.top.fresh, hrules, hsound, id, todo, htodo, rfl⟩
    · rw [Std.HashSet.mem_insert, hs.active, beq_iff_eq, eq_comm]
      exact List.mem_cons.symm
    · simp only [List.length_cons]
      omega
    · exact hs.root

theorem sound_tryEnd (hg : g.WellFormed) (hs : s.Sound g input root)
    (hl : s.top.layout = some l) {symbol : Symbol} {todo : List Symbol}
    (htodo : l.todo = symbol :: todo) {stop : Nat} {ends : Ends}
    (hends : l.ends.next? = some (stop, ends)) :
    (s.tryEnd (Extents.ofInput g input) { l with ends := ends } symbol todo stop).Sound
      g input root := by
  have hsound := hs.top.layout l hl
  rw [Ends.toList_of_next?_eq_some hends] at hsound
  have hspans := (hsound.ends _ _ htodo).spans stop List.mem_cons_self
  obtain ⟨memo, hsame, hagrees, hallowed⟩ :=
    (hsound.update ends hsound.memo).allows hg hs.top.goal.begins htodo hspans
  rw [tryEnd]
  -- Only the verdict and the memo of the look-ahead matter from here on.
  generalize Layout.allows (Extents.ofInput g input) s.top.goal { l with ends := ends } todo stop
    = outcome at hsame hallowed
  obtain ⟨allowed, l'⟩ := outcome
  obtain rfl : l' = { l with ends := ends, memo := memo } := hsame
  have hsound' := hsound.update ends hagrees
  cases allowed with
  | false =>
    refine hs.relay hl rfl (hsound'.useUp htodo fun hgrowable => ?_)
    exact Bool.false_ne_true (hallowed.2 (hgrowable.2.spans hg))
  | true =>
    cases symbol with
    | nonterm id =>
      have hrule : ({ l with ends := ends, memo := memo } : Layout).rule = l.rule := rfl
      exact sound_pursue hg hs hl hrule htodo hsound'
    | terminal t =>
      have hleaf : Preferred g input (s.top.goal :: s.below.map Waiting.goal) [.terminal t]
          l.pos stop [(Extents.ofInput g input).leaf t l.pos stop] := by
        cases hspans with
        | terminal ht hrest =>
          obtain rfl := Grammar.spans_nil_iff.1 hrest
          exact .terminal ht .nil
      refine hs.relay hl ?_ (hsound'.lay hg hs.top.goal.begins htodo hleaf)
      rw [Layout.lay]
      split <;> rfl

/-- A rule that is laid to its end gives the preferred tree. -/
theorem answer_node (hs : s.Sound g input root) (hl : s.top.layout = some l)
    (htodo : l.todo = []) (hpos : l.pos = s.top.goal.stop) :
    s.top.goal.Answer g input (s.below.map Waiting.goal)
      (some (l.node (Extents.ofInput g input) s.top.goal)) := by
  have hsound := hs.top.layout l hl
  have hlaid := hsound.laid
  have hbody := hsound.body_eq
  rw [htodo] at hlaid hbody
  rw [List.append_nil] at hbody
  have hrules := hs.top.rules
  rw [hl] at hrules
  obtain ⟨tried, halternatives, htried⟩ := hrules
  have hchildren := hlaid.preferred
  rw [← hbody, hpos] at hchildren
  refine .nonterm hsound.rule_mem ⟨hs.top.fresh, ⟨tried, s.top.untried, ?_, htried⟩, ?_⟩
    hchildren .nil
  · rw [halternatives, List.append_assoc]
    rfl
  · intro trees htrees
    rw [hbody, ← List.append_nil (l.laid.reverse.map Laid.symbol)] at htrees
    rcases hlaid.farthest htrees with ⟨front, rest, rfl, hrest, hfront⟩ | hlt
    · obtain ⟨-, rfl⟩ := Grows.nil_iff.1 hrest
      rw [List.append_nil, hfront]
      exact Or.inl rfl
    · have hlt := hlt []
      rw [List.append_nil] at hlt
      exact Or.inr hlt

/-- **Every move keeps what is known.** -/
theorem sound_step (hg : g.WellFormed) (hs : s.Sound g input root) :
    (s.step (Extents.ofInput g input)).Sound g input root := by
  rw [step]
  split
  · rename_i hnone
    exact sound_tryRule hg hs hnone
  · rename_i l hl
    have hsound := hs.top.layout l hl
    split
    · -- All symbols are laid.
      rename_i htodo
      split
      · rename_i hpos
        exact sound_deliver hg hs (answer_node hs hl htodo hpos)
      · rename_i hpos
        refine sound_takeBack hs hl ?_
        rwa [htodo, growable_nil_iff]
    · -- All ends of the next symbol have been used up.
      rename_i htodo hends
      refine sound_takeBack hs hl ?_
      have hleft := hsound.ends _ _ htodo
      rw [Ends.toList_of_next?_eq_none hends] at hleft
      rw [htodo]
      exact hleft.not_growable
    · rename_i htodo hends
      exact sound_tryEnd hg hs hl htodo hends

/-- A search ends with the answer to its first goal. -/
theorem answers_run (hg : g.WellFormed) (hs : s.Sound g input root) :
    root.Answer g input [] (s.run (Extents.ofInput g input)) := by
  fun_induction run (Extents.ofInput g input) s with
  | case1 s tree hstep =>
    have hsound := sound_step hg hs
    rwa [hstep] at hsound
  | case2 s s' hstep _ ih =>
    have hsound := sound_step hg hs
    rw [hstep] at hsound
    exact ih hsound

theorem sound_start (hroot : root.Sound g input) :
    (start (Extents.ofInput g input) root).Sound g input root := by
  have hpos : 0 < goalCount g input.size := by
    rw [← Goal.length_all]
    exact List.length_pos_of_mem hroot.mem_all
  refine ⟨⟨hroot, List.not_mem_nil, rulesLeft_start, ?_⟩, trivial, ?_, ?_, rfl⟩
  · rintro _ ⟨⟩
  · intro goal
    simpa [start, Frame.ofGoal] using eq_comm
  · exact Nat.sub_add_cancel hpos

end Search

end Earley
