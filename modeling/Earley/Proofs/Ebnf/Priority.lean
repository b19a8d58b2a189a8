/-
  The order of a text is the order of the rules.

  A parser that may choose takes the first rule of a non-terminal that fits, so the order of the
  rules is a priority. Flattening numbers the brackets of a rule as they open, but emits the rules
  of a bracket before those of what it stands in. Still the rules of each name come in the order of
  the text (`desugaring_keeps_order`): the name of a bracket tells its rule and its number, so no
  bracket that is opened elsewhere adds to them, and among the steps of one name those for its
  alternatives keep their order (`Atom.bodies_flatten`).

  What the rules of a text are is said without steps: each atom stands for some symbols
  (`Atom.symbols`), and a bracket has the alternatives between its marks and what its kind adds
  (`Bracket.alternatives`).
-/
import Earley.Proofs.Ebnf.Redeclaration
import Earley.Proofs.Grammar.Order

namespace Earley

/-! ### What declarations ask for -/

namespace Bracket

/-- The alternatives of a bracket called `self`, of those between its marks: a repetition goes on
behind itself, and what may be left out has an empty one at the end. -/
def alternatives {α : Type} (bracket : Bracket) (self : α) (body : List (List α)) :
    List (List α) :=
  match bracket with
  | .optional => body ++ [[]]
  | .repetition => body.map (self :: ·) ++ [[]]
  | .group => body

/-- The names of brackets in the order in which they open, of which `opened` came before. -/
def names (rule : String) (opened : Nat) (brackets : List (Bracket × List (List Atom))) :
    List String :=
  (brackets.zipIdx opened).map fun entry => entry.1.1.auxiliary rule (entry.2 + 1)

end Bracket

namespace Atom

variable (number : String → Nat) (rule : String)

mutual

/-- The symbols that an atom stands for, in the rule called `rule` of which `opened` brackets came
before: the one of its name, or those between the marks if these leave no trace. -/
def symbols (opened : Nat) : Atom → List Symbol
  | .reference name _ => [.nonterm (number name)]
  | .literal text => if text.isEmpty then [] else [.terminal (.literal text.toList)]
  | .range lo hi => [.terminal (.range lo hi)]
  | .nested .group [alternative] => symbolsIn opened alternative
  | .nested bracket _ => [.nonterm (number (bracket.auxiliary rule (opened + 1)))]

/-- The symbols that a sequence of atoms stands for. -/
def symbolsIn (opened : Nat) : List Atom → List Symbol
  | [] => []
  | atom :: atoms => atom.symbols opened ++ symbolsIn (opened + atom.brackets.length) atoms

end

/-- The symbols that each of some alternatives stands for. -/
def symbolsAmong (opened : Nat) : List (List Atom) → List (List Symbol)
  | [] => []
  | alternative :: body =>
    symbolsIn number rule opened alternative ::
      symbolsAmong (opened + (bracketsIn alternative).length) body

end Atom

/-! ### The names in the steps -/

namespace Bracket

theorem names_append (rule : String) (opened : Nat) (l l' : List (Bracket × List (List Atom))) :
    names rule opened (l ++ l') = names rule opened l ++ names rule (opened + l.length) l' := by
  rw [names, List.zipIdx_append, List.map_append, names, names]

theorem nonterms_closing (bracket : Bracket) (auxiliary : String) :
    Step.nonterms (bracket.closing auxiliary).toList = [] := by
  cases bracket <;> rfl

end Bracket

namespace Atom

section Names

variable (form : Terminal → String) (rule : String)

mutual

theorem nonterms_flatten (opened : Nat) (atom : Atom) :
    Step.nonterms (atom.flatten form rule opened).steps.toList =
      Bracket.names rule opened atom.brackets := by
  cases atom with
  | reference => rfl
  | literal text =>
    rw [flatten]
    split <;> rfl
  | range => rfl
  | nested bracket body =>
    by_cases h : bracket.IsSpliced body
    · cases h with | group alternative =>
      rw [flatten, brackets]
      exact nonterms_flattenIn opened alternative
    · rw [flatten_nested h, brackets_nested h]
      simp only [Steps.toList_append, Steps.toList_one, Step.nonterms_append,
        Bracket.nonterms_closing, List.append_nil]
      rw [nonterms_flattenAmong]
      rfl

theorem nonterms_flattenIn (opened : Nat) (atoms : List Atom) :
    Step.nonterms (flattenIn form rule opened atoms).steps.toList =
      Bracket.names rule opened (bracketsIn atoms) := by
  cases atoms with
  | nil => rfl
  | cons atom atoms =>
    rw [flattenIn, bracketsIn, Bracket.names_append]
    simp only [Steps.toList_append, Step.nonterms_append]
    rw [nonterms_flatten opened atom, nonterms_flattenIn _ atoms, opened_flatten]

theorem nonterms_flattenAmong (head : String) (lead : List String) (opened : Nat)
    (body : List (List Atom)) :
    Step.nonterms (flattenAmong form rule head lead opened body).1.toList =
      Bracket.names rule opened (bracketsAmong body) := by
  cases body with
  | nil => rfl
  | cons alternative body =>
    have hrule (names : List String) : Step.nonterms [.rule true head names] = [] := rfl
    rw [flattenAmong, bracketsAmong, Bracket.names_append]
    simp only [Steps.toList_append, Steps.toList_one, Step.nonterms_append, hrule, List.append_nil]
    rw [nonterms_flattenIn opened alternative, nonterms_flattenAmong head lead _ body,
      opened_flattenIn]

end

end Names

end Atom

/-! ### The rules in the steps -/

/-- The names that each of some alternatives is flattened to. -/
def Atom.namesAmong (rule : String) (opened : Nat) : List (List Atom) → List (List String)
  | [] => []
  | alternative :: body =>
    (flattenIn Terminal.display rule opened alternative).names ::
      namesAmong rule (opened + (bracketsIn alternative).length) body

namespace Bracket

variable {name rule auxiliary : String} {opened : Nat}

/-- The bodies of the rules of `name` that a bracket gives rise to: its alternatives, if this is the
name of the bracket. -/
def bodies (name rule : String) (entry : (Bracket × List (List Atom)) × Nat) :
    List (List String) :=
  let auxiliary := entry.1.1.auxiliary rule (entry.2 + 1)
  if auxiliary = name then
    entry.1.1.alternatives auxiliary (Atom.namesAmong rule (entry.2 + 1) entry.1.2)
  else []

/-- Brackets of which none has the name give rise to no rule of it. -/
theorem flatMap_bodies_eq_nil
    (h : ∀ (bracket : Bracket) (k : Nat), opened ≤ k → bracket.auxiliary rule (k + 1) ≠ name)
    (l : List (Bracket × List (List Atom))) :
    (l.zipIdx opened).flatMap (bodies name rule) = [] := by
  rw [List.flatMap_eq_nil_iff]
  intro entry hentry
  exact if_neg (h _ _ (List.le_snd_of_mem_zipIdx hentry))

theorem flatMap_bodies_append (l l' : List (Bracket × List (List Atom))) :
    ((l ++ l').zipIdx opened).flatMap (bodies name rule) =
      (l.zipIdx opened).flatMap (bodies name rule) ++
        (l'.zipIdx (opened + l.length)).flatMap (bodies name rule) := by
  rw [List.zipIdx_append, List.flatMap_append]

theorem bodies_closing_of_ne (h : auxiliary ≠ name) (bracket : Bracket) :
    Step.bodies name (bracket.closing auxiliary).toList = [] := by
  cases bracket <;>
    simp [closing, Steps.toList_one, Steps.toList_none, Step.bodies, Step.body?, h]

/-- The rules of a bracket are those of its alternatives behind the lead, and the closing ones. -/
theorem map_lead_append_closing (bracket : Bracket) (auxiliary : String)
    (body : List (List String)) :
    body.map (bracket.lead auxiliary ++ ·) ++
        Step.bodies auxiliary (bracket.closing auxiliary).toList =
      bracket.alternatives auxiliary body := by
  cases bracket <;>
    simp [lead, closing, alternatives, Steps.toList_one, Steps.toList_none, Step.bodies, Step.body?]

end Bracket

namespace Atom

section Bodies

variable {rule : String}

mutual

theorem bodies_flatten (hrule : '~' ∉ rule.toList) (name : String) (opened : Nat) (atom : Atom) :
    Step.bodies name (atom.flatten Terminal.display rule opened).steps.toList =
      (atom.brackets.zipIdx opened).flatMap (Bracket.bodies name rule) := by
  cases atom with
  | reference => rfl
  | literal text =>
    rw [flatten]
    split <;> rfl
  | range => rfl
  | nested bracket body =>
    by_cases h : bracket.IsSpliced body
    · cases h with | group alternative =>
      rw [flatten, brackets]
      exact bodies_flattenIn hrule name opened alternative
    · have hnonterm : Step.bodies name [.nonterm true (bracket.auxiliary rule (opened + 1))] = [] :=
        rfl
      rw [flatten_nested h, brackets_nested h, List.zipIdx_cons, List.flatMap_cons]
      simp only [Steps.toList_append, Steps.toList_one, Step.bodies_append, hnonterm,
        List.nil_append]
      by_cases hname : bracket.auxiliary rule (opened + 1) = name
      · -- The brackets inside have greater numbers, so their rules do not come between.
        subst hname
        have hfresh (bracket' : Bracket) (k : Nat) (hk : opened + 1 ≤ k) :
            bracket'.auxiliary rule (k + 1) ≠ bracket.auxiliary rule (opened + 1) := by
          intro heq
          have hnumber := (Bracket.auxiliary_inj hrule hrule heq).2.2
          omega
        rw [bodies_flattenAmong_self hrule _ _ hfresh, Bracket.map_lead_append_closing,
          Bracket.flatMap_bodies_eq_nil hfresh, List.append_nil, Bracket.bodies, if_pos rfl]
      · rw [bodies_flattenAmong_of_ne hrule hname, Bracket.bodies_closing_of_ne hname,
          List.append_nil, Bracket.bodies, if_neg hname, List.nil_append]

theorem bodies_flattenIn (hrule : '~' ∉ rule.toList) (name : String) (opened : Nat)
    (atoms : List Atom) :
    Step.bodies name (flattenIn Terminal.display rule opened atoms).steps.toList =
      ((bracketsIn atoms).zipIdx opened).flatMap (Bracket.bodies name rule) := by
  cases atoms with
  | nil => rfl
  | cons atom atoms =>
    rw [flattenIn, bracketsIn, Bracket.flatMap_bodies_append]
    simp only [Steps.toList_append, Step.bodies_append]
    rw [bodies_flatten hrule name opened atom, bodies_flattenIn hrule name _ atoms,
      opened_flatten]

theorem bodies_flattenAmong_of_ne (hrule : '~' ∉ rule.toList) {name head : String}
    (hne : head ≠ name) (lead : List String) (opened : Nat) (body : List (List Atom)) :
    Step.bodies name (flattenAmong Terminal.display rule head lead opened body).1.toList =
      ((bracketsAmong body).zipIdx opened).flatMap (Bracket.bodies name rule) := by
  cases body with
  | nil => rfl
  | cons alternative body =>
    have hstep (names : List String) : Step.bodies name [.rule true head names] = [] := by
      simp [Step.bodies, Step.body?, hne]
    rw [flattenAmong, bracketsAmong, Bracket.flatMap_bodies_append]
    simp only [Steps.toList_append, Steps.toList_one, Step.bodies_append, hstep, List.append_nil]
    rw [bodies_flattenIn hrule name opened alternative,
      bodies_flattenAmong_of_ne hrule hne lead _ body, opened_flattenIn]

theorem bodies_flattenAmong_self (hrule : '~' ∉ rule.toList) {head : String}
    (lead : List String) (opened : Nat)
    (hfresh : ∀ (bracket : Bracket) (k : Nat), opened ≤ k → bracket.auxiliary rule (k + 1) ≠ head)
    (body : List (List Atom)) :
    Step.bodies head (flattenAmong Terminal.display rule head lead opened body).1.toList =
      (namesAmong rule opened body).map (lead ++ ·) := by
  cases body with
  | nil => rfl
  | cons alternative body =>
    have hstep (names : List String) : Step.bodies head [.rule true head names] = [names] := by
      simp [Step.bodies, Step.body?]
    have hrest := bodies_flattenAmong_self hrule lead (opened + (bracketsIn alternative).length)
      (fun bracket k hk => hfresh bracket k (Nat.le_of_add_right_le hk)) body
    rw [flattenAmong, namesAmong, List.map_cons]
    simp only [Steps.toList_append, Steps.toList_one, Step.bodies_append, hstep]
    rw [bodies_flattenIn hrule head opened alternative, Bracket.flatMap_bodies_eq_nil hfresh,
      opened_flattenIn, hrest]
    rfl

end

end Bodies

end Atom

/-! ### The steps of all declarations -/

theorem nodup_zipIdx {α : Type} (xs : List α) (n : Nat) : (xs.zipIdx n).Nodup := by
  refine List.Nodup.of_map Prod.snd ?_
  rw [List.zipIdx_map_snd]
  exact List.nodup_range'

/-- If only one item of a list contributes anything, then that is all. -/
theorem flatMap_eq_of_mem {α β : Type} {f : α → List β} {xs : List α} {x : α} (hnodup : xs.Nodup)
    (hx : x ∈ xs) (h : ∀ y ∈ xs, y ≠ x → f y = []) : xs.flatMap f = f x := by
  induction xs with
  | nil => cases hx
  | cons y xs ih =>
    obtain ⟨hy, hnodup⟩ := List.nodup_cons.1 hnodup
    rw [List.flatMap_cons]
    rcases List.mem_cons.1 hx with rfl | hx
    · have hrest : xs.flatMap f = [] := List.flatMap_eq_nil_iff.2 fun z hz =>
        h z (List.mem_cons_of_mem _ hz) fun heq => hy (heq ▸ hz)
      rw [hrest, List.append_nil]
    · have hfirst : f y = [] := h y List.mem_cons_self fun heq => hy (heq ▸ hx)
      rw [hfirst, List.nil_append]
      exact ih hnodup hx fun z hz => h z (List.mem_cons_of_mem _ hz)

namespace Declaration

/-- The names of the brackets in a declaration, in the order in which they open. -/
def auxiliaries (d : Declaration) : List String :=
  Bracket.names d.name 0 (Atom.bracketsAmong d.body)

theorem exists_of_mem_auxiliaries {d : Declaration} {n : String} (h : n ∈ d.auxiliaries) :
    ∃ (bracket : Bracket) (k : Nat), n = bracket.auxiliary d.name k := by
  obtain ⟨entry, -, rfl⟩ := List.mem_map.1 h
  exact ⟨_, _, rfl⟩

theorem nonterms_allStepsBy (form : Terminal → String) (merged : List Declaration) :
    Step.nonterms (allStepsBy form merged) = merged.map name ++ merged.flatMap auxiliaries := by
  have hnames : Step.nonterms (merged.map fun d => .nonterm true d.name) = merged.map name := by
    rw [Step.nonterms, List.filterMap_map]
    exact congrFun (List.filterMap_eq_map (f := name)) merged
  have hbodies : Step.nonterms (bodyStepsBy form merged) = merged.flatMap auxiliaries := by
    rw [Step.nonterms, bodyStepsBy, List.filterMap_flatMap]
    exact List.flatMap_congr fun d _ => Atom.nonterms_flattenAmong form d.name d.name [] 0 d.body
  rw [allStepsBy, Step.nonterms_append, hnames, hbodies]

theorem bodies_allSteps (n : String) (merged : List Declaration) :
    Step.bodies n (allSteps merged) =
      merged.flatMap fun d => Step.bodies n (d.stepsBy Terminal.display) := by
  have hnames : Step.bodies n (merged.map fun d => .nonterm true d.name) = [] := by
    rw [Step.bodies, List.filterMap_map, List.filterMap_eq_nil_iff]
    exact fun _ _ => rfl
  rw [allSteps, allStepsBy, Step.bodies_append, hnames, List.nil_append, bodyStepsBy, Step.bodies,
    List.filterMap_flatMap]
  rfl

section Distinct

variable {merged : List Declaration} (hidentifier : ∀ d ∈ merged, IsIdentifier d.name)
  (hnodup : (merged.map name).Nodup)

include hidentifier

/-- A declaration has no rules for a name that is neither its own nor that of a bracket in it. -/
theorem bodies_steps_eq_nil {d : Declaration} (hd : d ∈ merged) {n : String} (hn : d.name ≠ n)
    (hauxiliary : ∀ (bracket : Bracket) (k : Nat), bracket.auxiliary d.name (k + 1) ≠ n) :
    Step.bodies n (d.stepsBy Terminal.display) = [] := by
  rw [stepsBy, Atom.bodies_flattenAmong_of_ne (hidentifier d hd).tilde_notMem hn]
  exact Bracket.flatMap_bodies_eq_nil (fun bracket k _ => hauxiliary bracket k) _

include hnodup

/-- The rules of a declared name are those of its alternatives, in the order of the text. -/
theorem bodies_allSteps_name {d : Declaration} (hd : d ∈ merged) :
    Step.bodies d.name (allSteps merged) = Atom.namesAmong d.name 0 d.body := by
  have hauxiliary (d' : Declaration) (bracket : Bracket) (k : Nat) :
      bracket.auxiliary d'.name (k + 1) ≠ d.name :=
    (Bracket.ne_auxiliary (hidentifier d hd) bracket d'.name (k + 1)).symm
  have hself :
      Step.bodies d.name (d.stepsBy Terminal.display) = Atom.namesAmong d.name 0 d.body := by
    rw [stepsBy, Atom.bodies_flattenAmong_self (hidentifier d hd).tilde_notMem _ _
      fun bracket k _ => hauxiliary d bracket k]
    exact List.map_id _
  rw [bodies_allSteps, flatMap_eq_of_mem (List.Nodup.of_map _ hnodup) hd, hself]
  intro d' hd' hne
  have hname : d'.name ≠ d.name := fun heq => hne (List.inj_on_of_nodup_map hnodup hd' hd heq)
  exact bodies_steps_eq_nil hidentifier hd' hname (hauxiliary d')

/-- The rules of a bracket are those of its alternatives, in the order of the text. -/
theorem bodies_allSteps_auxiliary {d : Declaration} (hd : d ∈ merged) {i : Nat}
    {bracket : Bracket} {body : List (List Atom)}
    (hi : (Atom.bracketsAmong d.body)[i]? = some (bracket, body)) :
    Step.bodies (bracket.auxiliary d.name (i + 1)) (allSteps merged) =
      bracket.alternatives (bracket.auxiliary d.name (i + 1))
        (Atom.namesAmong d.name (i + 1) body) := by
  have htilde (d' : Declaration) (hd' : d' ∈ merged) := (hidentifier d' hd').tilde_notMem
  have hname (d' : Declaration) (hd' : d' ∈ merged) :
      d'.name ≠ bracket.auxiliary d.name (i + 1) :=
    Bracket.ne_auxiliary (hidentifier d' hd') bracket d.name (i + 1)
  have hself : Step.bodies (bracket.auxiliary d.name (i + 1)) (d.stepsBy Terminal.display) =
      bracket.alternatives (bracket.auxiliary d.name (i + 1))
        (Atom.namesAmong d.name (i + 1) body) := by
    have hentry : ((bracket, body), i) ∈ (Atom.bracketsAmong d.body).zipIdx :=
      List.mk_mem_zipIdx_iff_getElem?.2 hi
    rw [stepsBy, Atom.bodies_flattenAmong_of_ne (htilde d hd) (hname d hd),
      flatMap_eq_of_mem (nodup_zipIdx _ _) hentry, Bracket.bodies, if_pos rfl]
    rintro ⟨⟨bracket', body'⟩, j⟩ hj hne
    refine if_neg fun heq => hne ?_
    obtain ⟨-, -, hnumber⟩ := Bracket.auxiliary_inj (htilde d hd) (htilde d hd) heq
    obtain rfl : j = i := by simpa using hnumber
    rw [List.mk_mem_zipIdx_iff_getElem?, hi] at hj
    rw [Option.some.inj hj]
  rw [bodies_allSteps, flatMap_eq_of_mem (List.Nodup.of_map _ hnodup) hd, hself]
  intro d' hd' hne
  refine bodies_steps_eq_nil hidentifier hd' (hname d' hd') fun bracket' k heq => hne ?_
  obtain ⟨-, hsame, -⟩ := Bracket.auxiliary_inj (htilde d' hd') (htilde d hd) heq
  exact List.inj_on_of_nodup_map hnodup hd' hd hsame

omit hnodup in
/-- The brackets of a declaration have distinct names. -/
theorem nodup_auxiliaries {d : Declaration} (hd : d ∈ merged) : d.auxiliaries.Nodup := by
  have htilde := (hidentifier d hd).tilde_notMem
  rw [auxiliaries, Bracket.names]
  refine List.Nodup.map_on ?_ (nodup_zipIdx _ _)
  rintro ⟨⟨bracket, body⟩, i⟩ hi ⟨⟨bracket', body'⟩, j⟩ hj heq
  obtain ⟨-, -, hnumber⟩ := Bracket.auxiliary_inj htilde htilde heq
  obtain rfl : i = j := by simpa using hnumber
  rw [List.mk_mem_zipIdx_iff_getElem?] at hi hj
  rw [Option.some.inj (hi.symm.trans hj)]

/-- No two declared names or brackets have the same name. -/
theorem nodup_names : (merged.map name ++ merged.flatMap auxiliaries).Nodup := by
  have htilde (d : Declaration) (hd : d ∈ merged) := (hidentifier d hd).tilde_notMem
  rw [List.nodup_append, List.nodup_flatMap]
  refine ⟨hnodup, ⟨fun d hd => nodup_auxiliaries hidentifier hd, ?_⟩, ?_⟩
  · -- The name of a bracket tells the rule, so brackets of two declarations differ.
    refine (List.Nodup.of_map _ hnodup).imp_of_mem fun {d d'} hd hd' hne n hn hn' => hne ?_
    obtain ⟨bracket, k, rfl⟩ := exists_of_mem_auxiliaries hn
    obtain ⟨bracket', k', heq⟩ := exists_of_mem_auxiliaries hn'
    obtain ⟨-, hsame, -⟩ := Bracket.auxiliary_inj (htilde d hd) (htilde d' hd') heq
    exact List.inj_on_of_nodup_map hnodup hd hd' hsame
  · intro n hn n' hn' heq
    obtain ⟨d, -, hauxiliary⟩ := List.mem_flatMap.1 hn'
    obtain ⟨bracket, k, rfl⟩ := exists_of_mem_auxiliaries hauxiliary
    have hid := isIdentifier_of_mem_map_name hidentifier hn
    exact Bracket.ne_auxiliary hid bracket d.name k heq

end Distinct

end Declaration

/-! ### References in brackets -/

namespace Atom

section Mentions

variable {reference : Reference} {bracket : Bracket} {body : List (List Atom)}

mutual

/-- What brackets in an atom mention, the atom mentions. -/
theorem mentions_of_mem_brackets (hr : (nested bracket body).Mentions reference) (atom : Atom)
    (h : (bracket, body) ∈ atom.brackets) : atom.Mentions reference := by
  cases atom with
  | reference | literal | range => cases h
  | nested bracket' body' =>
    by_cases hspliced : bracket'.IsSpliced body'
    · cases hspliced with | group alternative =>
      rw [brackets] at h
      obtain ⟨atom, hatom, hmentions⟩ := mentions_of_mem_bracketsIn hr alternative h
      exact .nested .group (List.mem_singleton_self _) hatom hmentions
    · rw [brackets_nested hspliced, List.mem_cons] at h
      rcases h with h | h
      · cases h
        exact hr
      · exact mentions_nested_iff.2 (mentions_of_mem_bracketsAmong hr body' h)

theorem mentions_of_mem_bracketsIn (hr : (nested bracket body).Mentions reference)
    (atoms : List Atom) (h : (bracket, body) ∈ bracketsIn atoms) :
    ∃ atom ∈ atoms, atom.Mentions reference := by
  cases atoms with
  | nil => cases h
  | cons atom atoms =>
    rw [bracketsIn, List.mem_append] at h
    rw [List.exists_mem_cons_iff]
    exact h.imp (mentions_of_mem_brackets hr atom) (mentions_of_mem_bracketsIn hr atoms)

theorem mentions_of_mem_bracketsAmong (hr : (nested bracket body).Mentions reference)
    (body' : List (List Atom)) (h : (bracket, body) ∈ bracketsAmong body') :
    ∃ alternative ∈ body', ∃ atom ∈ alternative, atom.Mentions reference := by
  cases body' with
  | nil => cases h
  | cons alternative body' =>
    rw [bracketsAmong, List.mem_append] at h
    rw [List.exists_mem_cons_iff]
    exact h.imp (mentions_of_mem_bracketsIn hr alternative)
      (mentions_of_mem_bracketsAmong hr body')

end

end Mentions

end Atom

/-! ### The symbols of a body -/

/-- Tells that a builder has under a name what the name looks like: for the form of a terminal the
terminal, and for any other name the non-terminal that is called so. -/
structure Builder.Means (b : Builder) (g : Grammar) (name : String) : Prop where
  terminal : ∀ t : Terminal, name = t.display → b.symbolOf name = .terminal t
  nonterm : (∀ t : Terminal, name ≠ t.display) → b.symbolOf name = .nonterm (g.number name)

/-- A name in the body of a rule has the symbol that it looks like. -/
theorem Grammar.means_of_mem_bodies {g : Grammar} {steps : List Step} {start head name : String}
    (hbuild : build steps start = .ok g) (hapart : ∀ step ∈ steps, step.KeepsApart Terminal.display)
    {body : List String} (hbody : body ∈ Step.bodies head steps) (hname : name ∈ body) :
    (Builder.run steps).Means g name := by
  obtain ⟨herror, -, -, hnonterms, -⟩ := Builder.finish_eq_ok_iff.1 hbuild
  obtain ⟨symbol, hsymbol⟩ := Builder.exists_symbol_of_mem_bodies herror hbody hname
  cases symbol with
  | nonterm id =>
    obtain ⟨_, hnonterm⟩ := Builder.exists_step_of_symbols_nonterm hsymbol
    have hmem : name ∈ g.nonterms.toList := by
      rw [hnonterms, (Builder.consistent_run steps).mem_nonterms_iff]
      exact ⟨id, hsymbol⟩
    exact ⟨fun t heq => absurd heq (hapart _ hnonterm t),
      fun _ => Builder.symbolOf_eq (symbols_number hbuild hmem)⟩
  | terminal t =>
    obtain ⟨_, hterminal⟩ := Builder.exists_step_of_symbols_terminal hsymbol
    have hdisplay : name = t.display := hapart _ hterminal
    refine ⟨fun t' heq => ?_, fun hne => absurd hdisplay (hne t)⟩
    rw [Builder.symbolOf_eq hsymbol, Terminal.display_injective (hdisplay.symm.trans heq)]

namespace Bracket

variable {α β : Type}

theorem map_alternatives (f : α → β) (bracket : Bracket) (self : α) (body : List (List α)) :
    (bracket.alternatives self body).map (List.map f) =
      bracket.alternatives (f self) (body.map (List.map f)) := by
  cases bracket <;> simp [alternatives]

/-- What stands between the marks of a bracket stands in an alternative of it. -/
theorem exists_mem_alternatives {bracket : Bracket} {self : α} {body : List (List α)}
    {names : List α} (h : names ∈ body) :
    ∃ alternative ∈ bracket.alternatives self body, names ⊆ alternative := by
  cases bracket with
  | optional => exact ⟨names, List.mem_append_left _ h, List.Subset.refl _⟩
  | repetition =>
    exact ⟨self :: names, List.mem_append_left _ (List.mem_map_of_mem h),
      List.subset_cons_self _ _⟩
  | group => exact ⟨names, h, List.Subset.refl _⟩

end Bracket

namespace Atom

theorem symbols_nested {number : String → Nat} {rule : String} {opened : Nat} {bracket : Bracket}
    {body : List (List Atom)} (h : ¬bracket.IsSpliced body) :
    (nested bracket body).symbols number rule opened =
      [.nonterm (number (bracket.auxiliary rule (opened + 1)))] := by
  rw [symbols]
  rintro alternative rfl rfl
  exact h (.group alternative)

section Symbols

variable {b : Builder} {g : Grammar} {rule : String}

mutual

/-- The names that an atom is flattened to have the symbols that it stands for. -/
theorem map_symbolOf_flatten (hrule : IsIdentifier rule) (opened : Nat) (atom : Atom)
    (hmentions : ∀ reference, atom.Mentions reference → IsIdentifier reference.name)
    (hnames : ∀ name ∈ (atom.flatten Terminal.display rule opened).names, b.Means g name) :
    (atom.flatten Terminal.display rule opened).names.map b.symbolOf =
      atom.symbols g.number rule opened := by
  cases atom with
  | reference name location =>
    have hmeans := hnames name (List.mem_singleton_self name)
    have hid : IsIdentifier name := hmentions _ (.reference name location)
    rw [flatten, symbols, List.map_singleton, hmeans.nonterm hid.ne_display]
  | literal text =>
    rw [flatten] at hnames ⊢
    rw [symbols]
    split at hnames
    · next hempty => simp [hempty]
    · next hempty =>
      have hmeans := hnames _ (List.mem_singleton_self _)
      simp [hempty, Flattened.ofTerminal, hmeans.terminal _ rfl]
  | range lo hi =>
    have hmeans := hnames _ (List.mem_singleton_self _)
    rw [flatten, symbols, Flattened.ofTerminal, List.map_singleton, hmeans.terminal _ rfl]
  | nested bracket body =>
    by_cases h : bracket.IsSpliced body
    · cases h with | group alternative =>
      have hinner (atom : Atom) (hatom : atom ∈ alternative) (reference : Reference)
          (hreference : atom.Mentions reference) : IsIdentifier reference.name :=
        hmentions _ (.nested .group (List.mem_singleton_self _) hatom hreference)
      rw [flatten] at hnames ⊢
      rw [symbols]
      exact map_symbolOf_flattenIn hrule opened alternative hinner hnames
    · rw [flatten_nested h] at hnames ⊢
      have hmeans := hnames _ (List.mem_singleton_self _)
      rw [List.map_singleton, hmeans.nonterm (bracket.auxiliary_ne_display hrule (opened + 1)),
        symbols_nested h]

theorem map_symbolOf_flattenIn (hrule : IsIdentifier rule) (opened : Nat) (atoms : List Atom)
    (hmentions : ∀ atom ∈ atoms, ∀ reference, atom.Mentions reference →
      IsIdentifier reference.name)
    (hnames : ∀ name ∈ (flattenIn Terminal.display rule opened atoms).names, b.Means g name) :
    (flattenIn Terminal.display rule opened atoms).names.map b.symbolOf =
      symbolsIn g.number rule opened atoms := by
  cases atoms with
  | nil => rfl
  | cons atom atoms =>
    rw [flattenIn] at hnames ⊢
    obtain ⟨hfirst, hrest⟩ := List.forall_mem_append.1 hnames
    obtain ⟨hmentions, hmentions'⟩ := List.forall_mem_cons.1 hmentions
    rw [symbolsIn, List.map_append, map_symbolOf_flatten hrule opened atom hmentions hfirst,
      map_symbolOf_flattenIn hrule _ atoms hmentions' hrest, opened_flatten]

end

/-- The names of each alternative have the symbols that it stands for. -/
theorem map_symbolOf_namesAmong (hrule : IsIdentifier rule) (opened : Nat)
    (body : List (List Atom))
    (hmentions : ∀ alternative ∈ body, ∀ atom ∈ alternative, ∀ reference,
      atom.Mentions reference → IsIdentifier reference.name)
    (hnames : ∀ names ∈ namesAmong rule opened body, ∀ name ∈ names, b.Means g name) :
    (namesAmong rule opened body).map (List.map b.symbolOf) =
      symbolsAmong g.number rule opened body := by
  induction body generalizing opened with
  | nil => rfl
  | cons alternative body ih =>
    obtain ⟨hfirst, hrest⟩ := List.forall_mem_cons.1 hnames
    obtain ⟨hmentions, hmentions'⟩ := List.forall_mem_cons.1 hmentions
    rw [namesAmong, symbolsAmong, List.map_cons,
      map_symbolOf_flattenIn hrule opened alternative hmentions hfirst, ih _ hmentions' hrest]

end Symbols

end Atom

/-! ### Built declarations -/

namespace Declaration

variable {merged : List Declaration} {start : String} {endOfText : Location} {g : Grammar}

section Built

variable (hidentifier : ∀ d ∈ merged, IsIdentifier d.name) (hnodup : (merged.map name).Nodup)
  (hcompile : compile merged start endOfText = .ok g)

include hidentifier hnodup hcompile

/-- The non-terminals are the declared names and behind them the brackets. -/
theorem nonterms_of_compile :
    g.nonterms.toList = merged.map name ++ merged.flatMap auxiliaries := by
  obtain ⟨-, hbuild⟩ := compile_eq_ok_iff.1 hcompile
  obtain ⟨-, -, -, hnonterms, -⟩ := Builder.finish_eq_ok_iff.1 hbuild
  rw [hnonterms, Builder.toList_nonterms_run (keepsApart_allSteps hidentifier), allSteps,
    nonterms_allStepsBy, eraseDups_eq_self (nodup_names hidentifier hnodup)]

omit hnodup in
theorem isIdentifier_of_mentions {d : Declaration} (hd : d ∈ merged) :
    ∀ alternative ∈ d.body, ∀ atom ∈ alternative, ∀ reference, atom.Mentions reference →
      IsIdentifier reference.name := by
  intro alternative halternative atom hatom reference hreference
  obtain ⟨hcheck, -⟩ := compile_eq_ok_iff.1 hcompile
  have hmem : reference ∈ d.references :=
    mem_references_iff.2 ⟨alternative, halternative, atom, hatom, hreference⟩
  exact isIdentifier_of_mem_map_name hidentifier ((check_eq_ok_iff.1 hcheck).1 d hd _ hmem)

/-- The rules of a declared name are its alternatives. -/
theorem bodies_name_of_compile {d : Declaration} (hd : d ∈ merged) :
    g.bodies d.name = (Atom.symbolsAmong g.number d.name 0 d.body).eraseDups := by
  obtain ⟨-, hbuild⟩ := compile_eq_ok_iff.1 hcompile
  have hname : d.name ∈ g.nonterms.toList := by
    rw [nonterms_of_compile hidentifier hnodup hcompile]
    exact List.mem_append_left _ (List.mem_map_of_mem hd)
  have hbodies := bodies_allSteps_name hidentifier hnodup hd
  rw [Grammar.bodies_build hbuild hname, hbodies,
    Atom.map_symbolOf_namesAmong (hidentifier d hd) 0 d.body
      (isIdentifier_of_mentions hidentifier hcompile hd)]
  intro names hnames name hmem
  rw [← hbodies] at hnames
  exact Grammar.means_of_mem_bodies hbuild (keepsApart_allSteps hidentifier) hnames hmem

/-- The rules of a bracket are its alternatives. -/
theorem bodies_auxiliary_of_compile {d : Declaration} (hd : d ∈ merged) {i : Nat}
    {bracket : Bracket} {body : List (List Atom)}
    (hi : (Atom.bracketsAmong d.body)[i]? = some (bracket, body)) :
    g.bodies (bracket.auxiliary d.name (i + 1)) =
      (bracket.alternatives (.nonterm (g.number (bracket.auxiliary d.name (i + 1))))
        (Atom.symbolsAmong g.number d.name (i + 1) body)).eraseDups := by
  obtain ⟨-, hbuild⟩ := compile_eq_ok_iff.1 hcompile
  have hauxiliary : bracket.auxiliary d.name (i + 1) ∈ d.auxiliaries :=
    List.mem_map.2 ⟨((bracket, body), i), List.mk_mem_zipIdx_iff_getElem?.2 hi, rfl⟩
  have hname : bracket.auxiliary d.name (i + 1) ∈ g.nonterms.toList := by
    rw [nonterms_of_compile hidentifier hnodup hcompile]
    exact List.mem_append_right _ (List.mem_flatMap.2 ⟨d, hd, hauxiliary⟩)
  have hbodies := bodies_allSteps_auxiliary hidentifier hnodup hd hi
  have hmentions : ∀ alternative ∈ body, ∀ atom ∈ alternative, ∀ reference,
      atom.Mentions reference → IsIdentifier reference.name := by
    intro alternative halternative atom hatom reference hreference
    obtain ⟨outer, houter, atom', hatom', hreference'⟩ := Atom.mentions_of_mem_bracketsAmong
      (.nested bracket halternative hatom hreference) d.body (List.mem_of_getElem? hi)
    exact isIdentifier_of_mentions hidentifier hcompile hd outer houter atom' hatom' reference
      hreference'
  have hself := Builder.symbolOf_eq (Grammar.symbols_number hbuild hname)
  rw [Grammar.bodies_build hbuild hname, hbodies, Bracket.map_alternatives, hself,
    Atom.map_symbolOf_namesAmong (hidentifier d hd) (i + 1) body hmentions]
  intro names hnames name hmem
  obtain ⟨alternative, halternative, hsubset⟩ := Bracket.exists_mem_alternatives hnames
  rw [← hbodies] at halternative
  exact Grammar.means_of_mem_bodies hbuild (keepsApart_allSteps hidentifier) halternative
    (hsubset hmem)

end Built

end Declaration

/-! ### The order of a text -/

namespace Declaration

/-- The first declarations have the declared names, in the order in which these first occur. -/
theorem map_name_firsts (ds : List Declaration) :
    (firsts ds).map name = (ds.map name).eraseDups := by
  induction ds with
  | nil => rfl
  | cons d ds ih =>
    have hfilter : ((firsts ds).filter (·.name ≠ d.name)).map name =
        ((firsts ds).map name).filter (fun n => !n == d.name) := by
      rw [List.filter_map]
      congr 1
      refine List.filter_congr fun d' _ => ?_
      rw [Function.comp_apply, beq_eq_decide, decide_not]
    rw [firsts, List.map_cons, hfilter, ih, filter_eraseDups, List.map_cons, List.eraseDups_cons]

/-- The merged declarations have the declared names, in the order in which these first occur. -/
theorem map_name_merge {ds merged : List Declaration} (h : merge ds = .ok merged) :
    merged.map name = (ds.map name).eraseDups := by
  rw [merge_eq_joined h, joined, List.map_map, ← map_name_firsts]
  rfl

end Declaration

open Declaration in
/-- **The order of a text is the order of the rules.** In the grammar of a text, the declared names,
in the order of their first declarations, are the first non-terminals. Behind them come the brackets
of each declaration in the order in which they open, each with the name of its place. The rules of a
declared name are its alternatives in the order of the text, those of all declarations together, and
the rules of a bracket are the alternatives between its marks in that order, with what the kind of
bracket adds; of the same ones, only the first is kept. -/
theorem desugaring_keeps_order {text : List Char} {start : String} {g : Grammar}
    (h : Grammar.compile text start = .ok g) :
    ∃ ds merged, ofChars text = .ok ds ∧ merge ds = .ok merged ∧
      merged.map name = (ds.map name).eraseDups ∧
      (∀ d ∈ merged, d.body = alternativesOf ds d.name) ∧
      g.nonterms.toList = merged.map name ++ merged.flatMap auxiliaries ∧
      g.nonterms.toList.Nodup ∧
      (∀ d ∈ merged,
        g.bodies d.name = (Atom.symbolsAmong g.number d.name 0 d.body).eraseDups) ∧
      ∀ d ∈ merged, ∀ (i : Nat) (bracket : Bracket) (body : List (List Atom)),
        (Atom.bracketsAmong d.body)[i]? = some (bracket, body) →
          g.bodies (bracket.auxiliary d.name (i + 1)) =
            (bracket.alternatives (.nonterm (g.number (bracket.auxiliary d.name (i + 1))))
              (Atom.symbolsAmong g.number d.name (i + 1) body)).eraseDups := by
  obtain ⟨ds, hread, merged, hmerge, hcompile⟩ := Grammar.compile_eq_ok_iff.1 h
  have hnodup := nodup_merge hmerge
  have hidentifier := isIdentifier_of_merge hread hmerge
  have hbody : ∀ d ∈ merged, d.body = alternativesOf ds d.name := by
    intro d hd
    rw [← alternativesOf_merge hmerge, alternativesOf_eq_body hnodup hd]
  have hnonterms := nonterms_of_compile hidentifier hnodup hcompile
  refine ⟨ds, merged, hread, hmerge, map_name_merge hmerge, hbody, hnonterms, ?_, ?_, ?_⟩
  · rw [hnonterms]
    exact nodup_names hidentifier hnodup
  · exact fun d hd => bodies_name_of_compile hidentifier hnodup hcompile hd
  · exact fun d hd i bracket body hi =>
      bodies_auxiliary_of_compile hidentifier hnodup hcompile hd hi

/-! ### Alternatives that become the same -/

/-- A text in which a name is declared twice, and alternatives differ by a group that leaves no
trace. -/
def regroupedText : List Char := "s = t | \x7b ( t ) | t \x7d ; t = ; s = ( t ) ;".toList

/-- The tokens of `regroupedText`. -/
def regroupedLexemes : List Lexeme :=
  [⟨.identifier "s", ⟨0, 1, 1⟩⟩, ⟨.define, ⟨2, 1, 3⟩⟩, ⟨.identifier "t", ⟨4, 1, 5⟩⟩,
    ⟨.bar, ⟨6, 1, 7⟩⟩, ⟨.openBrace, ⟨8, 1, 9⟩⟩, ⟨.openParen, ⟨10, 1, 11⟩⟩,
    ⟨.identifier "t", ⟨12, 1, 13⟩⟩, ⟨.closeParen, ⟨14, 1, 15⟩⟩, ⟨.bar, ⟨16, 1, 17⟩⟩,
    ⟨.identifier "t", ⟨18, 1, 19⟩⟩, ⟨.closeBrace, ⟨20, 1, 21⟩⟩, ⟨.semicolon, ⟨22, 1, 23⟩⟩,
    ⟨.identifier "t", ⟨24, 1, 25⟩⟩, ⟨.define, ⟨26, 1, 27⟩⟩, ⟨.semicolon, ⟨28, 1, 29⟩⟩,
    ⟨.identifier "s", ⟨30, 1, 31⟩⟩, ⟨.define, ⟨32, 1, 33⟩⟩, ⟨.openParen, ⟨34, 1, 35⟩⟩,
    ⟨.identifier "t", ⟨36, 1, 37⟩⟩, ⟨.closeParen, ⟨38, 1, 39⟩⟩, ⟨.semicolon, ⟨40, 1, 41⟩⟩]

/-- The declarations in `regroupedText`. -/
def regroupedDeclarations : List Declaration :=
  [⟨"s", ⟨0, 1, 1⟩, [[.reference "t" ⟨4, 1, 5⟩],
      [.nested .repetition [[.nested .group [[.reference "t" ⟨12, 1, 13⟩]]],
        [.reference "t" ⟨18, 1, 19⟩]]]]⟩,
    ⟨"t", ⟨24, 1, 25⟩, [[]]⟩,
    ⟨"s", ⟨30, 1, 31⟩, [[.nested .group [[.reference "t" ⟨36, 1, 37⟩]]]]⟩]

theorem ofChars_regroupedText : Declaration.ofChars regroupedText = .ok regroupedDeclarations := by
  have htokens : tokenize regroupedText = .ok regroupedLexemes := by decide +kernel
  rw [Declaration.ofChars, htokens]
  rfl

theorem merge_regroupedDeclarations :
    Declaration.merge regroupedDeclarations = .ok (Declaration.joined regroupedDeclarations) := rfl

theorem exists_compile_regroupedText : ∃ g, Grammar.compile regroupedText "s" = .ok g := by
  have hcheck : Declaration.check (Declaration.joined regroupedDeclarations) "s"
      (.endOf regroupedText) = .ok () :=
    Declaration.check_eq_ok_iff.2 (by decide)
  obtain ⟨g, hg⟩ := Grammar.exists_build_of_check ofChars_regroupedText
    merge_regroupedDeclarations hcheck
  exact ⟨g, Grammar.compile_eq_ok_iff.2 ⟨_, ofChars_regroupedText, _, merge_regroupedDeclarations,
    Declaration.compile_eq_ok_iff.2 ⟨hcheck, hg⟩⟩⟩

theorem desugaring_keeps_order_regrouped :
    ∃ g, Grammar.compile regroupedText "s" = .ok g ∧
      g.nonterms.toList = ["s", "t", "s~rep1"] ∧
      g.bodies "s" = [[.nonterm 1], [.nonterm 2]] ∧
      g.bodies "t" = [[]] ∧
      g.bodies "s~rep1" = [[.nonterm 2, .nonterm 1], []] := by
  obtain ⟨g, hg⟩ := exists_compile_regroupedText
  obtain ⟨ds, merged, hread, hmerge, -, -, hnonterms, -, hdeclared, hbrackets⟩ :=
    desugaring_keeps_order hg
  obtain rfl : ds = regroupedDeclarations :=
    Except.ok.inj (hread.symm.trans ofChars_regroupedText)
  obtain rfl : merged = Declaration.joined regroupedDeclarations :=
    Except.ok.inj (hmerge.symm.trans merge_regroupedDeclarations)
  replace hnonterms : g.nonterms.toList = ["s", "t", "s~rep1"] :=
    hnonterms.trans (by decide +kernel)
  have hnumber : g.number = fun n => ["s", "t", "s~rep1"].idxOf n := by
    funext n
    rw [Grammar.number, hnonterms]
  rw [hnumber] at hdeclared hbrackets
  refine ⟨g, hg, hnonterms, ?_, ?_, ?_⟩
  · exact (hdeclared _ List.mem_cons_self).trans (by decide +kernel)
  · exact (hdeclared _ (List.mem_cons_of_mem _ List.mem_cons_self)).trans (by decide +kernel)
  · exact (hbrackets _ List.mem_cons_self 0 .repetition _ rfl).trans (by decide +kernel)

end Earley
