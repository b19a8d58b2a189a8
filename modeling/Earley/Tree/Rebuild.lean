/-
  `Rebuild` — running the search to its end.

  Each move of a search settles a choice for good: a rule is used up, or an end for a symbol is.
  The numbers of choices that are left, listed from the bottom of the stack to its top, descend
  with every move (`descends_of_step`): what comes on top of a choice is free, but the choice
  itself has shrunk. The room for goals and the length of the longest rule bound the list, so the
  search ends, whatever the grammar and the chart.
-/
import Earley.Tree.Search
import Earley.Tree.Rank

namespace Earley

/-- The number of symbols in the longest rule. -/
def Grammar.longestBody (g : Grammar) : Nat :=
  (g.rules.toList.map fun rule => rule.body.size).foldr max 0

theorem Grammar.size_body_le_longestBody (g : Grammar) (index : Nat) :
    (g.rule index).body.size ≤ g.longestBody := by
  have hmem : ∀ sizes : List Nat, ∀ n ∈ sizes, n ≤ sizes.foldr max 0 := by
    intro sizes
    induction sizes with
    | nil => intro n h; cases h
    | cons m sizes ih =>
      intro n h
      rw [List.foldr_cons]
      rcases List.mem_cons.1 h with rfl | h
      · exact Nat.le_max_left _ _
      · exact Nat.le_trans (ih n h) (Nat.le_max_right _ _)
  rw [Grammar.rule, Array.getD]
  split
  · exact hmem _ _ (List.mem_map_of_mem (Array.getElem_mem_toList _))
  · exact Nat.zero_le _

/-! ### The choices left -/

namespace Layout

/-- The choices left in symbols that are laid: for each the number of its ends, and a zero, as
its tree is there. -/
def laidDigits : List Laid → List Nat
  | [] => []
  | last :: laid => laidDigits laid ++ [last.ends.count, 0]

/-- The choices left in a layout. -/
def digits (l : Layout) : List Nat := laidDigits l.laid ++ [l.ends.count]

/-- The number of symbols, laid or not. -/
def width (l : Layout) : Nat := l.laid.length + l.todo.length

theorem length_laidDigits (laid : List Laid) : (laidDigits laid).length = 2 * laid.length := by
  induction laid with
  | nil => rfl
  | cons last laid ih =>
    simp only [laidDigits, List.length_append, List.length_cons, List.length_nil, ih]
    omega

theorem width_ofRule_le (x : Extents) (goal : Goal) (rule : Nat) :
    (ofRule x goal rule).width ≤ x.chart.grammar.longestBody := by
  simpa [width, ofRule] using x.chart.grammar.size_body_le_longestBody rule

theorem width_lay (x : Extents) (goal : Goal) (l : Layout) (stop : Nat) (tree : ParseTree) :
    (l.lay x goal stop tree).width = l.width := by
  unfold lay
  split
  · rfl
  · rename_i htodo
    simp only [width, htodo, List.length_cons]
    omega

theorem width_takeBack {l l' : Layout} (h : l.takeBack = some l') : l'.width = l.width := by
  unfold takeBack at h
  split at h
  · cases h
  · rename_i hlaid
    cases h
    simp only [width, hlaid, List.length_cons]
    omega

/-- To ask whether an end is allowed changes only what is known to fit. -/
theorem allows_snd (x : Extents) (goal : Goal) (l : Layout) (todo : List Symbol) (stop : Nat) :
    (l.allows x goal todo stop).2.laid = l.laid ∧ (l.allows x goal todo stop).2.todo = l.todo ∧
      (l.allows x goal todo stop).2.ends = l.ends := by
  unfold allows
  split <;> exact ⟨rfl, rfl, rfl⟩

end Layout

namespace Frame

/-- The choices left for a goal that is worked on. -/
def digits (f : Frame) : List Nat :=
  f.untried.length :: match f.layout with
    | none => []
    | some l => l.digits

/-- A bound on the number of choices for a goal, if the longest rule has `longest` symbols. -/
def bound (longest : Nat) (f : Frame) : Nat :=
  match f.layout with
  | none => 2 * longest + 3
  | some l => 2 * max longest l.width + 3

theorem length_digits_le (longest : Nat) (f : Frame) : f.digits.length ≤ f.bound longest := by
  unfold digits bound
  split
  · exact Nat.le_add_left _ _
  · simp only [Layout.digits, List.length_cons, List.length_append, Layout.length_laidDigits,
      List.length_nil, Layout.width]
    omega

theorem le_bound (longest : Nat) (f : Frame) : 2 * longest + 3 ≤ f.bound longest := by
  unfold bound
  split <;> omega

end Frame

namespace Waiting

/-- The choices left for a goal that waits: those of its layout, and a one, as a tree is still
missing. -/
def digits (w : Waiting) : List Nat := w.untried.length :: (w.layout.digits ++ [1])

/-- A bound on the number of choices for a goal that waits. -/
def bound (longest : Nat) (w : Waiting) : Nat := 2 * max longest w.layout.width + 3

theorem length_digits_le (longest : Nat) (w : Waiting) : w.digits.length ≤ w.bound longest := by
  simp only [digits, bound, Layout.digits, List.length_cons, List.length_append,
    Layout.length_laidDigits, List.length_nil, Layout.width]
  omega

end Waiting

namespace Search

/-- The choices left for the goals that wait, from the bottom of the stack upwards. -/
def belowDigits : List Waiting → List Nat
  | [] => []
  | w :: below => belowDigits below ++ w.digits

/-- A bound on the number of choices for the goals that wait. -/
def belowBound (longest : Nat) : List Waiting → Nat
  | [] => 0
  | w :: below => belowBound longest below + w.bound longest

/-- The measure of a search: its choices, and a bound on how many there can be. -/
def rank (x : Extents) (s : Search) : Rank :=
  let longest := x.chart.grammar.longestBody
  ⟨s.room * (2 * longest + 3) + belowBound longest s.below + s.top.bound longest,
    belowDigits s.below ++ s.top.digits⟩

theorem length_belowDigits_le (longest : Nat) (below : List Waiting) :
    (belowDigits below).length ≤ belowBound longest below := by
  induction below with
  | nil => exact Nat.le_refl _
  | cons w below ih =>
    have hw := w.length_digits_le longest
    simp only [belowDigits, belowBound, List.length_append]
    omega

/-- The choices are within their bound. -/
theorem length_digits_rank_le (x : Extents) (s : Search) :
    (s.rank x).digits.length ≤ (s.rank x).bound := by
  have hbelow := length_belowDigits_le x.chart.grammar.longestBody s.below
  have htop := s.top.length_digits_le x.chart.grammar.longestBody
  simp only [rank, List.length_append]
  omega

/-! ### Every move descends -/

variable {x : Extents} {s s' : Search}

/-- A move that shrinks a choice. -/
theorem descends_of_digits_lt {a b : Nat} (front as bs : List Nat)
    (hold : (s.rank x).digits = front ++ b :: bs) (hnew : (s'.rank x).digits = front ++ a :: as)
    (hlt : a < b) (hbound : (s'.rank x).bound ≤ (s.rank x).bound) :
    (s'.rank x).Descends (s.rank x) := by
  have hlength := length_digits_rank_le x s
  rw [hold] at hlength
  have h := Rank.descends_of_lt front as bs hlt hbound hlength
  rwa [← hold, ← hnew] at h

/-- A move that gives the latest choices up. -/
theorem descends_of_digits_drop {b : Nat} (bs : List Nat)
    (hold : (s.rank x).digits = (s'.rank x).digits ++ b :: bs)
    (hbound : (s'.rank x).bound ≤ (s.rank x).bound) :
    (s'.rank x).Descends (s.rank x) := by
  have hlength := length_digits_rank_le x s
  rw [hold] at hlength
  have h := Rank.descends_of_drop (s'.rank x).digits bs hbound hlength
  rwa [← hold] at h

theorem descends_of_deliver {tree : Option ParseTree} (h : s.deliver x tree = .running s') :
    (s'.rank x).Descends (s.rank x) := by
  unfold deliver at h
  split at h
  · cases h
  · rename_i w below hbelow
    cases h
    have htop := s.top.le_bound x.chart.grammar.longestBody
    have hbound : (w.resume x tree).bound x.chart.grammar.longestBody =
        w.bound x.chart.grammar.longestBody := by
      cases tree <;> simp [Waiting.resume, Frame.bound, Waiting.bound, Layout.width_lay]
    have hle : s.room * (2 * x.chart.grammar.longestBody + 3) +
        (2 * x.chart.grammar.longestBody + 3) =
          (s.room + 1) * (2 * x.chart.grammar.longestBody + 3) := (Nat.succ_mul _ _).symm
    have hbounds : (rank x ⟨w.resume x tree, below, s.active.erase s.top.goal,
        s.room + 1⟩).bound ≤ (s.rank x).bound := by
      simp only [rank, hbelow, belowBound, hbound]
      omega
    cases tree with
    | none =>
      refine descends_of_digits_drop s.top.digits (b := 1) ?_ hbounds
      simp [rank, hbelow, belowDigits, Waiting.resume, Waiting.digits, Frame.digits]
    | some tree =>
      cases htodo : w.layout.todo with
      | nil =>
        refine descends_of_digits_drop s.top.digits (b := 1) ?_ hbounds
        simp [rank, hbelow, belowDigits, Waiting.resume, Waiting.digits, Frame.digits,
          Layout.lay, htodo]
      | cons symbol todo =>
        refine descends_of_digits_lt
          (belowDigits below ++ w.untried.length :: w.layout.digits)
          [(Layout.endsOf x w.goal todo w.stop).count] s.top.digits ?_ ?_ Nat.zero_lt_one hbounds
        · simp [rank, hbelow, belowDigits, Waiting.digits]
        · simp [rank, Waiting.resume, Frame.digits, Layout.lay, htodo, Layout.digits,
            Layout.laidDigits]

theorem descends_of_untried {rule : Nat} {untried : List Nat} {layout : Option Layout}
    (hnone : s.top.layout = none) (huntried : s.top.untried = rule :: untried)
    (hwidth : ∀ l, layout = some l → l.width ≤ x.chart.grammar.longestBody) :
    (rank x { s with top := ⟨s.top.goal, untried, layout⟩ }).Descends (s.rank x) := by
  refine descends_of_digits_lt (a := untried.length) (b := untried.length + 1)
    (belowDigits s.below) (Frame.digits ⟨s.top.goal, untried, layout⟩).tail [] ?_ rfl
    (Nat.lt_succ_self _) ?_
  · simp [rank, Frame.digits, huntried, hnone]
  · cases layout with
    | none => simp [rank, Frame.bound, hnone]
    | some l =>
      have hle := hwidth l rfl
      simp only [rank, Frame.bound, hnone]
      omega

theorem descends_of_tryRule (hnone : s.top.layout = none) (h : s.tryRule x = .running s') :
    (s'.rank x).Descends (s.rank x) := by
  unfold tryRule at h
  split at h
  · exact descends_of_deliver h
  · rename_i rule untried huntried
    cases h
    refine descends_of_untried hnone huntried fun l hl => ?_
    split at hl
    · cases hl
      exact Layout.width_ofRule_le x s.top.goal rule
    · cases hl

theorem descends_of_takeBack {l : Layout} (hl : s.top.layout = some l) :
    ((s.relay l.takeBack).rank x).Descends (s.rank x) := by
  cases hback : l.takeBack with
  | none =>
    have hlaid : l.laid = [] := by
      unfold Layout.takeBack at hback
      split at hback
      · assumption
      · cases hback
    refine descends_of_digits_drop (b := l.ends.count) [] ?_ ?_
    · simp [rank, relay, Frame.digits, hl, Layout.digits, hlaid, Layout.laidDigits]
    · have hle := s.top.le_bound x.chart.grammar.longestBody
      simp only [rank, relay, Frame.bound] at hle ⊢
      omega
  | some l' =>
    have hwidth := Layout.width_takeBack hback
    unfold Layout.takeBack at hback
    split at hback
    · cases hback
    · rename_i last laid hlaid
      cases hback
      refine descends_of_digits_drop (b := 0) [l.ends.count] ?_ ?_
      · simp [rank, relay, Frame.digits, hl, Layout.digits, hlaid, Layout.laidDigits]
      · simp only [rank, relay, Frame.bound, hl, hwidth, Nat.le_refl]

/-- To use an end up is a move that descends, whatever is laid on top. -/
theorem descends_of_relay {l l' : Layout} {stop : Nat} {ends : Ends}
    (hl : s.top.layout = some l) (hends : l.ends.next? = some (stop, ends))
    (hwidth : l'.width = l.width)
    (hdigits : ∃ more, l'.digits = Layout.laidDigits l.laid ++ ends.count :: more) :
    ((s.relay (some l')).rank x).Descends (s.rank x) := by
  obtain ⟨more, hmore⟩ := hdigits
  refine descends_of_digits_lt
    (belowDigits s.below ++ s.top.untried.length :: Layout.laidDigits l.laid) more []
    (b := ends.count + 1) ?_ ?_ (Nat.lt_succ_self _) ?_
  · simp [rank, Frame.digits, hl, Layout.digits, Ends.count_of_next? hends]
  · simp [rank, relay, Frame.digits, hmore]
  · simp only [rank, relay, Frame.bound, hl, hwidth, Nat.le_refl]

theorem descends_of_pursue {l l' : Layout} {stop : Nat} {ends : Ends} (goal : Goal)
    (hl : s.top.layout = some l) (hends : l.ends.next? = some (stop, ends))
    (hwidth : l'.width = l.width) (hlaid : l'.laid = l.laid) (hends' : l'.ends = ends) :
    ((s.pursue x l' goal).rank x).Descends (s.rank x) := by
  unfold pursue
  split
  · exact descends_of_relay hl hends hwidth ⟨[], by simp [Layout.digits, hlaid, hends']⟩
  · rename_i hroom
    simp only [Bool.or_eq_true, beq_iff_eq, not_or] at hroom
    refine descends_of_digits_lt
      (belowDigits s.below ++ s.top.untried.length :: Layout.laidDigits l.laid)
      (1 :: (Frame.ofGoal x goal).digits) [] (b := ends.count + 1) ?_ ?_
      (Nat.lt_succ_self ends.count) ?_
    · simp [rank, Frame.digits, hl, Layout.digits, Ends.count_of_next? hends]
    · simp [rank, belowDigits, Waiting.digits, Layout.digits, hlaid, hends']
    · obtain ⟨room, hroom⟩ : ∃ n, s.room = n + 1 := ⟨s.room - 1, by omega⟩
      simp only [rank, belowBound, Waiting.bound, Frame.bound, Frame.ofGoal, hl, hwidth, hroom,
        Nat.add_sub_cancel, Nat.succ_mul]
      omega

theorem descends_of_tryEnd {l : Layout} {symbol : Symbol} {todo : List Symbol} {stop : Nat}
    {ends : Ends} (hl : s.top.layout = some l) (htodo : l.todo = symbol :: todo)
    (hends : l.ends.next? = some (stop, ends)) :
    ((s.tryEnd x { l with ends := ends } symbol todo stop).rank x).Descends (s.rank x) := by
  have hsame := Layout.allows_snd x s.top.goal { l with ends := ends } todo stop
  unfold tryEnd
  generalize Layout.allows x s.top.goal { l with ends := ends } todo stop = outcome at hsame ⊢
  obtain ⟨allowed, l'⟩ := outcome
  obtain ⟨hlaid, htodo', hends'⟩ : l'.laid = l.laid ∧ l'.todo = l.todo ∧ l'.ends = ends := hsame
  have hwidth : l'.width = l.width := by simp only [Layout.width, hlaid, htodo']
  cases allowed with
  | false => exact descends_of_relay hl hends hwidth ⟨[], by simp [Layout.digits, hlaid, hends']⟩
  | true =>
    cases symbol with
    | nonterm id => exact descends_of_pursue _ hl hends hwidth hlaid hends'
    | terminal t =>
      refine descends_of_relay hl hends ((Layout.width_lay ..).trans hwidth)
        ⟨[0, (Layout.endsOf x s.top.goal todo stop).count], ?_⟩
      simp [Layout.lay, htodo', htodo, Layout.digits, Layout.laidDigits, hlaid, hends']

/-- Every move of a search leaves fewer choices. -/
theorem descends_of_step (h : s.step x = .running s') : (s'.rank x).Descends (s.rank x) := by
  unfold step at h
  split at h
  · rename_i hnone
    exact descends_of_tryRule hnone h
  · rename_i l hl
    split at h
    · split at h
      · exact descends_of_deliver h
      · cases h
        exact descends_of_takeBack hl
    · cases h
      exact descends_of_takeBack hl
    · rename_i htodo hends
      cases h
      exact descends_of_tryEnd hl htodo hends

/-! ### The tree of a chart -/

/-- Makes moves until the search is finished. -/
def run (x : Extents) (s : Search) : Option ParseTree :=
  match h : s.step x with
  | .finished tree => tree
  | .running s' =>
    have : (s'.rank x).Descends (s.rank x) := descends_of_step h
    run x s'
termination_by s.rank x

end Search

namespace Chart

/-- The goal of the whole input: the start symbol from its start to its end. -/
def goal (c : Chart) : Goal := ⟨c.grammar.start, 0, c.input.size⟩

/-- The preferred tree of the whole input, if the search finds one. -/
def tree? (c : Chart) : Option ParseTree :=
  let x := Extents.ofChart c
  (Search.start x c.goal).run x

/-- The preferred tree of an input in the language. -/
def tree (c : Chart) : Except ParseError ParseTree :=
  match c.acceptingRule?.bind fun _ => c.tree? with
  | some tree => .ok tree
  | none => .error (.notRebuilt c.grammar.startName 0 c.input.size)

end Chart

/-- The preferred tree of `input`, if that is in the language of `g`. -/
def Grammar.parseTree (g : Grammar) (input : List Char) : Except ParseError ParseTree := do
  (← g.parse input).tree

end Earley
