/-
  Languages for the names of a builder.

  A valuation gives a language to every name. It is closed under a step if it allows for what the
  step says: the name of a terminal has the texts that the terminal matches, and the head of a
  rule has what its body has one after another.

  The languages that a grammar gives to the names of its builder are the least valuation that is
  closed under all of the steps (`isLeast_valuation`), provided that every terminal is registered
  under the name that its step gives to it. That is so where terminals have their own forms for
  names and non-terminals have other names (`symbols_of_mem_terminal`). Of a repeated terminal or
  rule, and of the order of the rules, a valuation knows nothing.
-/
import Earley.Proofs.Grammar.Builder
import Earley.Proofs.Grammar.Derivation
import Earley.Proofs.Text.Quoted
import Mathlib.Computability.Language
import Mathlib.Order.CompletePartialOrder

namespace Earley

/-- Languages are ordered by inclusion. -/
theorem language_le_iff {L M : Language Char} : L ≤ M ↔ ∀ w, w ∈ L → w ∈ M := Iff.rfl

/-- The texts that a terminal matches. -/
def Terminal.language (t : Terminal) : Language Char := {w | t.Matches w}

/-- A language for each name. -/
abbrev Valuation := String → Language Char

namespace Valuation

variable {V : Valuation}

/-- The language of some names one after another. -/
def sequence (V : Valuation) (names : List String) : Language Char := (names.map V).prod

@[simp]
theorem sequence_nil (V : Valuation) : V.sequence [] = 1 := rfl

@[simp]
theorem sequence_cons (V : Valuation) (name : String) (names : List String) :
    V.sequence (name :: names) = V name * V.sequence names :=
  List.prod_cons

theorem sequence_append (V : Valuation) (names names' : List String) :
    V.sequence (names ++ names') = V.sequence names * V.sequence names' := by
  rw [sequence, List.map_append, List.prod_append, sequence, sequence]

/-- Tells that a valuation allows for what a step says. -/
def ClosedUnder (V : Valuation) : Step → Prop
  | .nonterm _ _ => True
  | .terminal _ name t => t.language ≤ V name
  | .rule _ head body => V.sequence body ≤ V head

end Valuation

/-- Tells that a step registers a terminal under the name that `form` gives to it, or a non-terminal
under a name that is not the one of any terminal. -/
def Step.KeepsApart (form : Terminal → String) : Step → Prop
  | .nonterm _ name => ∀ t : Terminal, name ≠ form t
  | .terminal _ name t => name = form t
  | .rule _ _ _ => True

namespace Builder

variable {b : Builder} {g : Grammar} {name : String} {w : List Char}

/-- What the symbol registered under each name generates in the grammar `g`. -/
def valuation (b : Builder) (g : Grammar) : Valuation := fun name =>
  {w | ∃ symbol, b.symbols[name]? = some symbol ∧ g.Generates [symbol] w}

theorem mem_valuation_iff :
    w ∈ b.valuation g name ↔ ∃ symbol, b.symbols[name]? = some symbol ∧ g.Generates [symbol] w :=
  Iff.rfl

theorem mem_valuation_of_symbol {symbol : Symbol} (h : b.symbols[name]? = some symbol) :
    w ∈ b.valuation g name ↔ g.Generates [symbol] w := by
  rw [mem_valuation_iff]
  constructor
  · rintro ⟨symbol', hsymbol, hw⟩
    rw [h] at hsymbol
    cases hsymbol
    exact hw
  · exact fun hw => ⟨symbol, h, hw⟩

theorem mem_sequence_valuation_iff {names : List String} {symbols : List Symbol}
    (h : List.Forall₂ (fun name symbol => b.symbols[name]? = some symbol) names symbols) :
    w ∈ (b.valuation g).sequence names ↔ g.Generates symbols w := by
  induction h generalizing w with
  | nil => rw [Valuation.sequence_nil, Language.mem_one, Grammar.generates_nil_iff]
  | @cons name symbol names symbols hsymbol _ ih =>
    have happend := Grammar.generates_append_iff (g := g) (α := [symbol]) (β := symbols) (w := w)
    rw [List.singleton_append] at happend
    rw [Valuation.sequence_cons, Language.mem_mul, happend]
    simp only [mem_valuation_of_symbol hsymbol, ih, exists_and_left]

section Least

variable {steps : List Step} {V : Valuation}

/-- A name for the head of a rule is the one in the step that added the rule. -/
theorem eq_of_symbols_nonterm {name' : String} {id : Nat}
    (h : (run steps).symbols[name]? = some (.nonterm id))
    (h' : (run steps).symbols[name']? = some (.nonterm id)) : name = name' := by
  have hconsistent := consistent_run steps
  rw [hconsistent.nonterm_iff] at h h'
  exact Option.some.inj (h.symm.trans h')

/-- What symbols generate, the names that they are registered under have in every valuation that
is closed under the steps. -/
theorem mem_sequence_of_generates {symbols : List Symbol}
    (hrules : g.rules = (run steps).rules) (hV : ∀ step ∈ steps, V.ClosedUnder step)
    (h : g.Generates symbols w) {names : List String}
    (hnames : List.Forall₂ (fun name symbol => (run steps).symbols[name]? = some symbol) names
      symbols) :
    w ∈ V.sequence names := by
  induction h generalizing names with
  | nil =>
    cases hnames
    exact (Language.mem_one _).2 rfl
  | @terminal t _ _ _ ht _ ih =>
    rw [List.forall₂_cons_right_iff] at hnames
    obtain ⟨name, names, hname, hnames, rfl⟩ := hnames
    -- A step has registered the terminal, so the valuation allows for what it matches.
    obtain ⟨quiet, hstep⟩ := exists_step_of_symbols_terminal hname
    have hlanguage : t.language ≤ V name := hV _ hstep
    rw [Valuation.sequence_cons]
    exact Language.append_mem_mul (hlanguage ht) (ih hnames)
  | @nonterm rule _ _ _ hrule _ _ ihbody ihrest =>
    rw [List.forall₂_cons_right_iff] at hnames
    obtain ⟨name, names, hname, hnames, rfl⟩ := hnames
    rw [hrules] at hrule
    -- The step that has added the rule may spell it only with names for its own symbols.
    obtain ⟨quiet, head, body, hstep, hresolve⟩ := exists_step_of_mem_rules hrule
    obtain ⟨hhead, hbody⟩ := resolveRule_eq_ok_iff.1 hresolve
    obtain rfl := eq_of_symbols_nonterm hname hhead
    have hlanguage : V.sequence body ≤ V name := hV _ hstep
    rw [Valuation.sequence_cons]
    exact Language.append_mem_mul (hlanguage (ihbody hbody)) (ihrest hnames)

theorem valuation_le (hrules : g.rules = (run steps).rules)
    (hV : ∀ step ∈ steps, V.ClosedUnder step) : (run steps).valuation g ≤ V := by
  rintro name w ⟨symbol, hsymbol, hw⟩
  have hmem := mem_sequence_of_generates hrules hV hw (.cons hsymbol .nil)
  rwa [Valuation.sequence_cons, Valuation.sequence_nil, mul_one] at hmem

theorem closedUnder_valuation (hrules : g.rules = (run steps).rules)
    (herror : (run steps).error = none)
    (hterminal : ∀ quiet name t, Step.terminal quiet name t ∈ steps →
      (run steps).symbols[name]? = some (.terminal t)) {step : Step} (h : step ∈ steps) :
    ((run steps).valuation g).ClosedUnder step := by
  cases step with
  | nonterm => trivial
  | terminal quiet name t =>
    refine language_le_iff.2 fun w hw => ?_
    rw [mem_valuation_of_symbol (hterminal quiet name t h), Grammar.generates_terminal_cons_iff]
    exact ⟨w, [], hw, .nil, List.append_nil w⟩
  | rule quiet head body =>
    refine language_le_iff.2 fun w hw => ?_
    obtain ⟨rule, hrule, hresolve⟩ := exists_rule_of_mem herror h
    obtain ⟨hhead, hbody⟩ := resolveRule_eq_ok_iff.1 hresolve
    rw [mem_sequence_valuation_iff hbody] at hw
    rw [mem_valuation_of_symbol hhead, Grammar.generates_nonterm_iff]
    exact ⟨rule, hrules ▸ hrule, rfl, hw⟩

/-- The grammar gives to the names of its builder the least languages that the steps allow. -/
theorem isLeast_valuation (hrules : g.rules = (run steps).rules)
    (herror : (run steps).error = none)
    (hterminal : ∀ quiet name t, Step.terminal quiet name t ∈ steps →
      (run steps).symbols[name]? = some (.terminal t)) :
    IsLeast {V : Valuation | ∀ step ∈ steps, V.ClosedUnder step} ((run steps).valuation g) :=
  ⟨fun _ => closedUnder_valuation hrules herror hterminal, fun _ => valuation_le hrules⟩

end Least

/-! ### Names that keep apart -/

section KeepsApart

variable {steps : List Step} (herror : (run steps).error = none)
  (hapart : ∀ step ∈ steps, step.KeepsApart Terminal.display)

include herror hapart

/-- A name that a terminal was to be registered under belongs to that terminal. -/
theorem symbols_of_mem_terminal {quiet : Bool} {t : Terminal}
    (h : Step.terminal quiet name t ∈ steps) :
    (run steps).symbols[name]? = some (.terminal t) := by
  obtain ⟨symbol, hsymbol⟩ := exists_symbol_of_mem herror h rfl
  have hname : name = t.display := hapart _ h
  cases symbol with
  | nonterm id =>
    obtain ⟨_, hstep⟩ := exists_step_of_symbols_nonterm hsymbol
    exact absurd hname (hapart _ hstep t)
  | terminal t' =>
    obtain ⟨_, hstep⟩ := exists_step_of_symbols_terminal hsymbol
    have hname' : name = t'.display := hapart _ hstep
    rw [hsymbol, Terminal.display_injective (hname.symm.trans hname')]

/-- A name that a non-terminal was to be registered under belongs to a non-terminal. -/
theorem exists_id_of_mem_nonterm {quiet : Bool} (h : Step.nonterm quiet name ∈ steps) :
    ∃ id, (run steps).symbols[name]? = some (.nonterm id) := by
  obtain ⟨symbol, hsymbol⟩ := exists_symbol_of_mem herror h rfl
  cases symbol with
  | nonterm id => exact ⟨id, hsymbol⟩
  | terminal t =>
    obtain ⟨_, hstep⟩ := exists_step_of_symbols_terminal hsymbol
    have hname : name = t.display := hapart _ hstep
    exact absurd hname (hapart _ h t)

end KeepsApart

end Builder

end Earley
