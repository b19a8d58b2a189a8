/-
  `InRange` — the search for a tree never reads out of range.

  In sound states the checked moves are the moves: every number that is used is in range, and every
  part of the input is in order (`step?_eq`). The search looks only at positions from the start of
  a goal to its end, which is in the input, and at symbols of rules that there are; and a goal that
  is not on the stack always finds room.
-/
import Earley.Proofs.Tree.Search
import Earley.Tree.Checked

namespace Earley

/-! ### Reading by number -/

namespace Grammar

variable {g : Grammar} {index dot : Nat}

theorem bodyFrom?_eq (h : index < g.rules.size) (hdot : dot ≤ (g.rule index).body.size)
    {symbols : List Symbol} (hsymbols : (g.rule index).body.toList.drop dot = symbols) :
    g.bodyFrom? index dot = some symbols := by
  simp only [bodyFrom?, getElem?_rules h, Option.bind_eq_bind, Option.bind_some, if_pos hdot,
    hsymbols]

theorem mapM_symbolName?_eq (symbols : List Symbol)
    (h : ∀ id, .nonterm id ∈ symbols → id < g.nonterms.size) :
    symbols.mapM g.symbolName? = some (symbols.map g.symbolName) := by
  induction symbols with
  | nil => rfl
  | cons symbol symbols ih =>
    have hsymbol : g.symbolName? symbol = some (g.symbolName symbol) := by
      cases symbol with
      | nonterm id => exact getElem?_nonterms (h id List.mem_cons_self)
      | terminal t => rfl
    rw [List.mapM_cons, hsymbol, ih fun id hid => h id (List.mem_cons_of_mem _ hid)]
    rfl

theorem ruleText?_eq (hg : g.WellFormed) (h : index < g.rules.size) :
    g.ruleText? index = some (g.ruleText index) := by
  have hnames := mapM_symbolName?_eq (g.rule index).body.toList fun id hid =>
    hg.nonterm_lt _ (rule_mem h) id (Array.mem_toList_iff.1 hid)
  simp only [ruleText?, getElem?_rules h, getElem?_nonterms (hg.head_rule_lt h), hnames,
    Option.bind_eq_bind, Option.bind_some]
  rfl

end Grammar

/-! ### Looking ahead -/

theorem Chart.spans?_eq {g : Grammar} {input : Array Char} {rule start stop : Nat}
    (hrule : rule < g.rules.size) (hstop : stop ≤ input.size) :
    (ofInput g input).spans? rule start stop =
      some ((ofInput g input).spans rule start stop) := by
  have hget : (ofInput g input).grammar.rules[rule]? = some (g.rule rule) :=
    Grammar.getElem?_rules hrule
  simp only [spans?, hget, setAt?_ofInput hstop, Option.bind_eq_bind, Option.bind_some]
  rfl

namespace Extents

variable {g : Grammar} {input : Array Char} {goal : Goal} {rule dot pos limit : Nat}
  {symbol : Symbol} {symbols : List Symbol} {memo : Memo}

theorem candidates?_eq (hpos : pos ≤ limit) (hlimit : limit ≤ input.size) :
    (ofInput g input).candidates? symbol pos limit =
      some ((ofInput g input).candidates symbol pos limit) :=
  if_pos ⟨hpos, hlimit⟩

theorem reaches?_eq (goal : Goal) (rule dot : Nat) (hpos : pos ≤ input.size) :
    (ofInput g input).reaches? goal rule dot pos =
      some ((ofInput g input).reaches goal rule dot pos) := by
  have hset : (ofInput g input).chart.setAt? pos = some ((ofInput g input).chart.setAt pos) :=
    Chart.setAt?_ofInput hpos
  rw [reaches?, hset]
  rfl

section AnyEnd

variable {p? : Nat → Memo → Option (Bool × Memo)} {p : Nat → Memo → Bool × Memo}
  {ends rest : Ends} {stop : Nat}

theorem anyEnd?_of_next?_eq_none (h : ends.next? = none) :
    anyEnd? p? ends memo = some (false, memo) := by
  rw [anyEnd?]
  split
  · rfl
  · rename_i hsome
    rw [h] at hsome
    cases hsome

theorem anyEnd?_of_next?_eq_some (h : ends.next? = some (stop, rest)) :
    anyEnd? p? ends memo = (p? stop memo).bind fun outcome =>
      if outcome.1 then some (true, outcome.2) else anyEnd? p? rest outcome.2 := by
  rw [anyEnd?]
  split
  · rename_i hnone
    rw [h] at hnone
    cases hnone
  · rename_i hsome
    rw [h] at hsome
    cases hsome
    rfl

theorem anyEnd?_eq (hp : ∀ stop ∈ ends.toList, ∀ memo, p? stop memo = some (p stop memo)) :
    anyEnd? p? ends memo = some (anyEnd p ends memo) := by
  fun_induction anyEnd p ends memo with
  | case1 ends memo hnext => exact anyEnd?_of_next?_eq_none hnext
  | case2 ends memo stop rest hnext memo' htrial =>
    rw [Ends.toList_of_next?_eq_some hnext] at hp
    rw [anyEnd?_of_next?_eq_some hnext, hp stop List.mem_cons_self memo, htrial]
    rfl
  | case3 ends memo stop rest hnext memo' htrial _ ih =>
    rw [Ends.toList_of_next?_eq_some hnext] at hp
    rw [anyEnd?_of_next?_eq_some hnext, hp stop List.mem_cons_self memo, htrial]
    exact ih fun stop' hmem => hp stop' (List.mem_cons_of_mem _ hmem)

end AnyEnd

/-- Looking ahead stays within a goal that ends in the input. The induction is on the symbols that
are left of the rule. -/
theorem fits?_eq (hrule : rule < g.rules.size) (hstop : goal.stop ≤ input.size)
    (hdot : dot ≤ (g.rule rule).body.size) (hpos : pos ≤ goal.stop)
    (hsymbols : (g.rule rule).body.toList.drop dot = symbols) (memo : Memo) :
    (ofInput g input).fits? goal rule symbols dot pos memo =
      some ((ofInput g input).fits goal rule symbols dot pos memo) := by
  have hbody : (ofInput g input).chart.grammar.bodyFrom? rule dot = some symbols :=
    Grammar.bodyFrom?_eq hrule hdot hsymbols
  induction symbols generalizing dot pos memo with
  | nil => rw [fits?, if_pos hbody, fits]
  | cons symbol symbols ih =>
    have hdrop : (g.rule rule).body.toList.drop (dot + 1) = symbols := by
      rw [← List.tail_drop, hsymbols, List.tail_cons]
    have hdot' : dot + 1 ≤ (g.rule rule).body.size := by
      have hlength := congrArg List.length hsymbols
      rw [List.length_drop, Array.length_toList, List.length_cons] at hlength
      omega
    have hbody' : (ofInput g input).chart.grammar.bodyFrom? rule (dot + 1) = some symbols :=
      Grammar.bodyFrom?_eq hrule hdot' hdrop
    rw [fits?, if_pos hbody, fits]
    cases memo[(dot, pos)]? with
    | some known => rfl
    | none =>
      simp only [candidates?_eq hpos hstop, Option.bind_eq_bind, Option.bind_some]
      rw [anyEnd?_eq (p := fun stop memo =>
          if (ofInput g input).reaches goal rule (dot + 1) stop then
            (ofInput g input).fits goal rule symbols (dot + 1) stop memo
          else (false, memo))]
      · rfl
      · -- The ends that are tried are not beyond the goal.
        intro stop hmem memo
        have hle : stop ≤ goal.stop := (mem_toList_candidates_iff.1 hmem).1
        simp only [reaches?_eq goal rule (dot + 1) (Nat.le_trans hle hstop), Option.bind_some]
        split
        · exact ih hdot' hle hdrop memo hbody'
        · rfl

/-- The part of the input that a leaf covers is in order. -/
theorem leaf?_eq {t : Terminal} {start stop : Nat} (hstart : start ≤ stop)
    (hstop : stop ≤ input.size) :
    (ofInput g input).leaf? t start stop = some ((ofInput g input).leaf t start stop) :=
  if_pos ⟨hstart, hstop⟩

end Extents

/-! ### Layouts -/

namespace Layout

variable {g : Grammar} {input : Array Char} {above : List Goal} {goal : Goal} {l : Layout}
  {stops : List Nat} {stop rule dot pos : Nat} {symbol : Symbol} {symbols todo : List Symbol}

theorem endsOf?_eq (hrule : rule < g.rules.size) (hgoal : goal.Sound g input)
    (hdot : dot ≤ (g.rule rule).body.size) (hpos : pos ≤ goal.stop)
    (hsymbols : (g.rule rule).body.toList.drop dot = symbols) :
    endsOf? (.ofInput g input) goal rule dot symbols pos =
      some (endsOf (.ofInput g input) goal symbols pos) := by
  have hbody : (Extents.ofInput g input).chart.grammar.bodyFrom? rule dot = some symbols :=
    Grammar.bodyFrom?_eq hrule hdot hsymbols
  cases symbols with
  | nil => rw [endsOf?, if_pos hbody, endsOf]
  | cons symbol symbols =>
    rw [endsOf?, if_pos hbody]
    exact Extents.candidates?_eq hpos hgoal.stop_le

theorem ofRule?_eq (hrule : rule < g.rules.size) (hgoal : goal.Sound g input) :
    ofRule? (.ofInput g input) goal rule = some (ofRule (.ofInput g input) goal rule) := by
  have hget : (Extents.ofInput g input).chart.grammar.rules[rule]? = some (g.rule rule) :=
    Grammar.getElem?_rules hrule
  have hends := endsOf?_eq hrule hgoal (Nat.zero_le _) hgoal.start_le List.drop_zero
  simp only [ofRule?, hget, hends, Option.bind_eq_bind, Option.bind_some]
  rfl

/-- What is laid next ends within the goal. -/
theorem Sound.lay?_eq (hg : g.WellFormed) (hgoal : goal.Sound g input)
    (h : l.Sound g input above goal (stop :: stops)) (htodo : l.todo = symbol :: todo)
    (tree : ParseTree) :
    l.lay? (.ofInput g input) goal stop tree =
      some (l.lay (.ofInput g input) goal stop tree) := by
  have hstop := (h.ends symbol todo htodo).le_limit stop List.mem_cons_self
  have hends := endsOf?_eq (h.rule_lt hg) hgoal (h.dot_lt htodo) hstop (h.drop_dot_succ htodo)
  simp only [lay?, Layout.lay, htodo, hends, Option.bind_eq_bind, Option.bind_some]

/-- The dot says how many symbols may be taken back. -/
theorem Sound.takeBack?_eq (h : l.Sound g input above goal stops) :
    l.takeBack? = some l.takeBack := by
  have hdot := h.dot_eq
  rw [takeBack?, Layout.takeBack]
  cases hlaid : l.laid with
  | nil =>
    rw [hlaid, List.length_nil] at hdot
    rw [hdot]
    rfl
  | cons last laid =>
    rw [hlaid, List.length_cons] at hdot
    rw [hdot]
    rfl

theorem Sound.allows?_eq (hg : g.WellFormed) (hgoal : goal.Sound g input)
    (h : l.Sound g input above goal stops) (htodo : l.todo = symbol :: todo)
    (hstop : stop ≤ goal.stop) :
    l.allows? (.ofInput g input) goal todo stop =
      some (l.allows (.ofInput g input) goal todo stop) := by
  have hreaches := Extents.reaches?_eq (g := g) goal l.rule (l.dot + 1)
    (Nat.le_trans hstop hgoal.stop_le)
  have hfits := Extents.fits?_eq (h.rule_lt hg) hgoal.stop_le (h.dot_lt htodo) hstop
    (h.drop_dot_succ htodo) l.memo
  simp only [allows?, Layout.allows, hreaches, hfits, Option.bind_eq_bind, Option.bind_some]
  split <;> rfl

theorem Sound.node?_eq (hg : g.WellFormed) (hgoal : goal.Sound g input)
    (h : l.Sound g input above goal stops) :
    l.node? (.ofInput g input) goal = some (l.node (.ofInput g input) goal) := by
  have hname : (Extents.ofInput g input).chart.grammar.nonterms[goal.nonterm]? =
      some (g.name goal.nonterm) := Grammar.getElem?_nonterms hgoal.nonterm_lt
  have htext : (Extents.ofInput g input).chart.grammar.ruleText? l.rule =
      some (g.ruleText l.rule) := Grammar.ruleText?_eq hg (h.rule_lt hg)
  simp only [node?, hname, htext, Option.bind_eq_bind, Option.bind_some]
  rfl

end Layout

/-! ### Moves -/

/-- A non-terminal that derives something has a rule. -/
theorem Frame.ofGoal?_eq {g : Grammar} {input : Array Char} {goal : Goal} (hg : g.WellFormed)
    {i k : Nat} (h : g.Spans input [.nonterm goal.nonterm] i k) :
    ofGoal? (.ofInput g input) goal = some (ofGoal (.ofInput g input) goal) := by
  obtain ⟨rule, hrule, hhead, -⟩ := Grammar.spans_nonterm_iff.1 h
  have hmem : rule ∈ g.alternativesOf goal.nonterm := hg.mem_alternativesOf_iff.2 ⟨hrule, hhead⟩
  have hget : (Extents.ofInput g input).chart.grammar.alternatives[goal.nonterm]? =
      some (g.alternativesOf goal.nonterm) :=
    Grammar.getElem?_alternatives (List.ne_nil_of_mem hmem)
  simp only [ofGoal?, hget, Option.bind_eq_bind, Option.bind_some]
  rfl

theorem Waiting.Sound.resume?_eq {g : Grammar} {input : Array Char} {above : List Goal}
    {next : Goal} {w : Waiting} (hg : g.WellFormed) (hw : w.Sound g input above next)
    (tree : Option ParseTree) :
    w.resume? (.ofInput g input) tree = some (w.resume (.ofInput g input) tree) := by
  obtain ⟨id, todo, htodo, -⟩ := hw.next_eq
  cases tree with
  | none => rfl
  | some tree =>
    have hlay := hw.layout.lay?_eq hg hw.goal htodo tree
    simp only [resume?, resume, hlay, Option.bind_eq_bind, Option.bind_some]

namespace Search

variable {g : Grammar} {input : Array Char} {root : Goal} {s : Search} {l : Layout}

theorem deliver?_eq (hg : g.WellFormed) (hs : s.Sound g input root) (tree : Option ParseTree) :
    s.deliver? (.ofInput g input) tree = some (s.deliver (.ofInput g input) tree) := by
  have hbelow := hs.below
  rw [deliver?, deliver]
  cases heq : s.below with
  | nil => rfl
  | cons w below =>
    rw [heq] at hbelow
    have hresume := hbelow.1.resume?_eq hg tree
    simp only [hresume, Option.bind_eq_bind, Option.bind_some]

theorem tryRule?_eq (hg : g.WellFormed) (hs : s.Sound g input root) :
    s.tryRule? (.ofInput g input) = some (s.tryRule (.ofInput g input)) := by
  have hrules := hs.top.rules
  rw [tryRule?, tryRule]
  cases heq : s.top.untried with
  | nil => exact deliver?_eq hg hs none
  | cons rule untried =>
    rw [heq] at hrules
    have hrule := (hg.mem_alternativesOf_iff.1 hrules.mem_alternativesOf).1
    have hspans : (Extents.ofInput g input).chart.spans? rule s.top.goal.start s.top.goal.stop =
        some ((Extents.ofInput g input).chart.spans rule s.top.goal.start s.top.goal.stop) :=
      Chart.spans?_eq hrule hs.top.goal.stop_le
    have hlayout := Layout.ofRule?_eq hrule hs.top.goal
    simp only [hspans, hlayout, Option.bind_eq_bind, Option.bind_some]
    split <;> rfl

/-- There is room for every goal that is not on the stack. -/
theorem pursue?_eq (hg : g.WellFormed) (hs : s.Sound g input root) {goal : Goal}
    (hgoal : goal.Sound g input)
    (hspans : g.Spans input [.nonterm goal.nonterm] goal.start goal.stop) :
    s.pursue? (.ofInput g input) l goal = some (s.pursue (.ofInput g input) l goal) := by
  rw [pursue?, pursue]
  by_cases hactive : goal ∈ s.active
  · rw [if_pos (by simpa using hactive), if_pos (by simp [hactive])]
  · have hpos := hs.room_pos hgoal fun hmem => hactive ((hs.active goal).2 hmem)
    have hroom : (s.room == 0) = false := beq_eq_false_iff_ne.2 (Nat.ne_of_gt hpos)
    rw [if_neg (by simpa using hactive), if_neg (by simp [hactive, hroom]),
      Frame.ofGoal?_eq hg hspans]
    rfl

theorem tryEnd?_eq (hg : g.WellFormed) (hs : s.Sound g input root)
    (hl : s.top.layout = some l) {symbol : Symbol} {todo : List Symbol}
    (htodo : l.todo = symbol :: todo) {stop : Nat} {ends : Ends}
    (hends : l.ends.next? = some (stop, ends)) :
    s.tryEnd? (.ofInput g input) { l with ends := ends } symbol todo stop =
      some (s.tryEnd (.ofInput g input) { l with ends := ends } symbol todo stop) := by
  have hsound := hs.top.layout l hl
  rw [Ends.toList_of_next?_eq_some hends] at hsound
  have hleft := hsound.ends symbol todo htodo
  have hspans := hleft.spans stop List.mem_cons_self
  have hupdated := hsound.update ends hsound.memo
  have hallows := hupdated.allows?_eq hg hs.top.goal htodo (hleft.le_limit stop List.mem_cons_self)
  obtain ⟨memo, hsame, hagrees, -⟩ := hupdated.allows hg hs.top.goal.begins htodo hspans
  simp only [tryEnd?, tryEnd, hallows, Option.bind_eq_bind, Option.bind_some]
  -- Only the verdict and the memo of the look-ahead matter from here on.
  generalize Layout.allows (Extents.ofInput g input) s.top.goal { l with ends := ends } todo stop
    = outcome at hsame
  obtain ⟨allowed, l'⟩ := outcome
  obtain rfl : l' = { l with ends := ends, memo := memo } := hsame
  have hsound' := hsound.update ends hagrees
  cases allowed with
  | false => rfl
  | true =>
    cases symbol with
    | nonterm id =>
      have hgoal := hsound.goal_next hg hs.top.goal htodo
      exact pursue?_eq hg hs hgoal hspans
    | terminal t =>
      obtain ⟨hle, hstop, -⟩ := hspans.generates (hsound.pos_le hg hs.top.goal.begins)
      have hleaf := Extents.leaf?_eq (g := g) (t := t) hle hstop
      have hlay := hsound'.lay?_eq hg hs.top.goal htodo
        ((Extents.ofInput g input).leaf t l.pos stop)
      simp only [hleaf, hlay, if_true, Option.bind_some]

/-- **No move reads out of range**: every checked move is the move itself. -/
theorem step?_eq (hg : g.WellFormed) (hs : s.Sound g input root) :
    s.step? (.ofInput g input) = some (s.step (.ofInput g input)) := by
  rw [step?, step]
  cases hl : s.top.layout with
  | none => exact tryRule?_eq hg hs
  | some l =>
    have hsound := hs.top.layout l hl
    have hbody : (Extents.ofInput g input).chart.grammar.bodyFrom? l.rule l.dot = some l.todo :=
      Grammar.bodyFrom?_eq (hsound.rule_lt hg) hsound.dot_le hsound.drop_dot
    have htakeBack := hsound.takeBack?_eq
    have hnode := hsound.node?_eq hg hs.top.goal
    simp only [if_pos hbody]
    cases htodo : l.todo with
    | nil =>
      simp only [hnode, htakeBack, deliver?_eq hg hs, Option.bind_eq_bind, Option.bind_some]
      split <;> rfl
    | cons symbol todo =>
      cases hends : l.ends.next? with
      | none => simp only [htakeBack, Option.bind_eq_bind, Option.bind_some]
      | some next =>
        obtain ⟨stop, ends⟩ := next
        have htryEnd := tryEnd?_eq hg hs hl htodo hends
        rw [htodo] at htryEnd
        simp only [htryEnd, Option.bind_eq_bind, Option.bind_some]

theorem start?_eq (hg : g.WellFormed) (goal : Goal)
    (hspans : g.Spans input [.nonterm goal.nonterm] goal.start goal.stop) :
    start? (.ofInput g input) goal = some (start (.ofInput g input) goal) := by
  simp only [start?, Frame.ofGoal?_eq hg hspans, Option.bind_eq_bind, Option.bind_some]
  rfl

end Search

end Earley
