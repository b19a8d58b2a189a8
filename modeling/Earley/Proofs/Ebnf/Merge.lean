/-
  What merging keeps.

  Merged declarations have distinct names, those of the declarations that were merged, and each of
  them has all alternatives that were declared for its name, in the order of the text.
-/
import Earley.Ebnf.Merge
import Mathlib.Data.List.Nodup

namespace Earley

namespace Declaration

variable {declarations merged merged' : List Declaration} {later : Declaration} {n : String}

/-! ### The alternatives of a name -/

/-- The alternatives that declarations give to a name, in the order of the text. -/
def alternativesOf (declarations : List Declaration) (n : String) : List (List Atom) :=
  (declarations.filter (·.name == n)).flatMap body

theorem alternativesOf_nil (n : String) : alternativesOf [] n = [] := rfl

theorem alternativesOf_cons (d : Declaration) (ds : List Declaration) (n : String) :
    alternativesOf (d :: ds) n = (if d.name = n then d.body else []) ++ alternativesOf ds n := by
  by_cases h : d.name = n <;> simp [alternativesOf, h]

theorem alternativesOf_append (ds ds' : List Declaration) (n : String) :
    alternativesOf (ds ++ ds') n = alternativesOf ds n ++ alternativesOf ds' n := by
  rw [alternativesOf, List.filter_append, List.flatMap_append, alternativesOf, alternativesOf]

theorem alternativesOf_eq_nil {ds : List Declaration} (h : n ∉ ds.map name) :
    alternativesOf ds n = [] := by
  induction ds with
  | nil => rfl
  | cons d ds ih =>
    rw [List.map_cons, List.mem_cons, not_or] at h
    rw [alternativesOf_cons, if_neg (Ne.symm h.1), List.nil_append, ih h.2]

/-- Where names are distinct, the alternatives of a name are those of its one declaration. -/
theorem alternativesOf_eq_body {ds : List Declaration} (hnodup : (ds.map name).Nodup)
    {d : Declaration} (h : d ∈ ds) : alternativesOf ds d.name = d.body := by
  induction ds with
  | nil => cases h
  | cons d' ds ih =>
    rw [List.map_cons, List.nodup_cons] at hnodup
    rw [alternativesOf_cons]
    rcases List.mem_cons.1 h with rfl | h
    · rw [if_pos rfl, alternativesOf_eq_nil hnodup.1, List.append_nil]
    · have hne : d'.name ≠ d.name := fun heq => hnodup.1 (heq ▸ List.mem_map_of_mem h)
      rw [if_neg hne, List.nil_append, ih hnodup.2 h]

/-! ### One more declaration -/

/-- A declaration with the alternatives of `later` behind its own, if it has the same name. -/
def extend (later d : Declaration) : Declaration :=
  if d.name == later.name then { d with body := d.body ++ later.body } else d

theorem name_extend (later d : Declaration) : (extend later d).name = d.name := by
  unfold extend
  split <;> rfl

theorem extend_of_ne {d : Declaration} (h : d.name ≠ later.name) : extend later d = d := by
  unfold extend
  exact if_neg (by simpa using h)

theorem map_name_map_extend (later : Declaration) (ds : List Declaration) :
    (ds.map (extend later)).map name = ds.map name := by
  rw [List.map_map]
  exact List.map_congr_left fun d _ => name_extend later d

theorem map_extend_eq_self {ds : List Declaration} (h : later.name ∉ ds.map name) :
    ds.map (extend later) = ds := by
  have hself : ∀ d ∈ ds, extend later d = id d := fun d hd =>
    extend_of_ne fun heq => h (heq ▸ List.mem_map_of_mem hd)
  rw [List.map_congr_left hself, List.map_id]

/-- A declaration is put behind the others or taken into the one of its name. -/
theorem absorb_cases (h : absorb merged later = .ok merged') :
    later.name ∉ merged.map name ∧ merged' = merged ++ [later] ∨
      later.name ∈ merged.map name ∧ merged' = merged.map (extend later) := by
  unfold absorb at h
  split at h
  · next hearlier =>
    have hnew : later.name ∉ merged.map name := by
      rw [earlier?, List.find?_eq_none] at hearlier
      intro hmem
      obtain ⟨d, hd, hname⟩ := List.mem_map.1 hmem
      exact hearlier d hd (beq_iff_eq.2 hname)
    cases h
    exact Or.inl ⟨hnew, rfl⟩
  · next earlier hearlier =>
    rw [earlier?] at hearlier
    have hname : earlier.name = later.name := by simpa using List.find?_some hearlier
    have hold := List.mem_map_of_mem (f := name) (List.mem_of_find?_eq_some hearlier)
    split at h
    · cases h
    · cases h
      exact Or.inr ⟨hname ▸ hold, rfl⟩

/-- A declaration that is taken into an earlier one adds its alternatives behind all others of its
name. -/
theorem alternativesOf_map_extend (hnodup : (merged.map name).Nodup)
    (hmem : later.name ∈ merged.map name) (n : String) :
    alternativesOf (merged.map (extend later)) n = alternativesOf (merged ++ [later]) n := by
  induction merged with
  | nil => cases hmem
  | cons d merged ih =>
    rw [List.map_cons, List.nodup_cons] at hnodup
    rw [List.map_cons, List.cons_append, alternativesOf_cons, alternativesOf_cons, name_extend]
    by_cases hd : d.name = later.name
    · -- No other declaration has this name, so the rest stays as it is.
      have hbody : (extend later d).body = d.body ++ later.body := by simp [extend, hd]
      rw [map_extend_eq_self (hd ▸ hnodup.1), alternativesOf_append, alternativesOf_cons later,
        alternativesOf_nil, ← hd, hbody]
      by_cases hn : d.name = n
      · rw [alternativesOf_eq_nil (hn ▸ hnodup.1)]
        simp [hn]
      · simp [hn]
    · rw [extend_of_ne hd, ih hnodup.2 ((List.mem_cons.1 hmem).resolve_left (Ne.symm hd))]

theorem alternativesOf_absorb (h : absorb merged later = .ok merged')
    (hnodup : (merged.map name).Nodup) (n : String) :
    alternativesOf merged' n = alternativesOf (merged ++ [later]) n := by
  rcases absorb_cases h with ⟨-, rfl⟩ | ⟨hmem, rfl⟩
  · rfl
  · exact alternativesOf_map_extend hnodup hmem n

theorem mem_map_name_absorb (h : absorb merged later = .ok merged') :
    n ∈ merged'.map name ↔ n ∈ (merged ++ [later]).map name := by
  rcases absorb_cases h with ⟨-, rfl⟩ | ⟨hmem, rfl⟩
  · rfl
  · rw [map_name_map_extend, List.map_append, List.mem_append, List.map_singleton,
      List.mem_singleton]
    exact ⟨Or.inl, fun hn => hn.elim id fun heq => heq ▸ hmem⟩

theorem nodup_absorb (h : absorb merged later = .ok merged') (hnodup : (merged.map name).Nodup) :
    (merged'.map name).Nodup := by
  rcases absorb_cases h with ⟨hnew, rfl⟩ | ⟨-, rfl⟩
  · rw [List.map_append, List.map_singleton, ← List.concat_eq_append]
    exact List.Nodup.concat hnew hnodup
  · rwa [map_name_map_extend]

/-! ### All declarations -/

/-- What `merge` keeps, from any state of it on. -/
theorem merge_from (h : declarations.foldlM absorb merged = .ok merged')
    (hnodup : (merged.map name).Nodup) :
    (merged'.map name).Nodup ∧
      (∀ n, n ∈ merged'.map name ↔ n ∈ (merged ++ declarations).map name) ∧
      ∀ n, alternativesOf merged' n = alternativesOf (merged ++ declarations) n := by
  induction declarations generalizing merged with
  | nil =>
    cases h
    simpa using hnodup
  | cons d declarations ih =>
    rw [List.foldlM_cons] at h
    cases habsorb : absorb merged d with
    | error e =>
      rw [habsorb] at h
      cases h
    | ok next =>
      rw [habsorb] at h
      obtain ⟨hnodup', hnames, halternatives⟩ := ih h (nodup_absorb habsorb hnodup)
      have hcons : merged ++ d :: declarations = merged ++ [d] ++ declarations := by simp
      refine ⟨hnodup', fun n => ?_, fun n => ?_⟩
      · rw [hnames, hcons, List.map_append, List.mem_append, mem_map_name_absorb habsorb,
          ← List.mem_append, ← List.map_append]
      · rw [halternatives, hcons, alternativesOf_append, alternativesOf_append (merged ++ [d]),
          alternativesOf_absorb habsorb hnodup]

theorem nodup_merge (h : merge declarations = .ok merged) : (merged.map name).Nodup :=
  (merge_from h List.nodup_nil).1

/-- The merged declarations have the names of those that were merged. -/
theorem mem_map_name_merge (h : merge declarations = .ok merged) :
    n ∈ merged.map name ↔ n ∈ declarations.map name :=
  (merge_from h List.nodup_nil).2.1 n

/-- Merging keeps the alternatives of every name, and their order. -/
theorem alternativesOf_merge (h : merge declarations = .ok merged) (n : String) :
    alternativesOf merged n = alternativesOf declarations n :=
  (merge_from h List.nodup_nil).2.2 n

end Declaration

end Earley
