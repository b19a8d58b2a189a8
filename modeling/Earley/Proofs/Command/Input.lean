/-
  The texts that a run of the checker reads.

  A path can be read if there is a file with a text in UTF-8 (`World.Holds`). The input of a check
  that is not interactive comes from the first source that there is (`World.Supplies`): the file of
  the option, the file of the path argument, or the standard input, which either names a file or is
  the input itself, once it is trimmed (`IsTrimmed`). The checker reads just these texts
  (`readText_eq_ok_iff`, `readInput_eq_ok_iff`).
-/
import Earley.Command.Run
import Mathlib.Data.List.DropRight

namespace Earley

/-! ### Trimmed texts -/

/-- Tells that a text is what white space surrounds in another, without any of it at its own
ends. -/
structure IsTrimmed (text trimmed : String) : Prop where
  surrounded : ∃ front back : List Char, text.toList = front ++ trimmed.toList ++ back ∧
    (∀ c ∈ front, isWhiteSpace c = true) ∧ ∀ c ∈ back, isWhiteSpace c = true
  head : ∀ c ∈ trimmed.toList.head?, isWhiteSpace c = false
  last : ∀ c ∈ trimmed.toList.getLast?, isWhiteSpace c = false

theorem toList_trim (text : String) :
    (trim text).toList = (text.toList.dropWhile isWhiteSpace).rdropWhile isWhiteSpace := by
  rw [trim, String.toList_ofList]
  rfl

theorem eq_false_of_mem_head?_dropWhile {α : Type} {p : α → Bool} {l : List α} {a : α}
    (h : a ∈ (l.dropWhile p).head?) : p a = false := by
  have hhead := List.head?_dropWhile_not p l
  rw [Option.mem_def] at h
  rwa [h] at hhead

theorem isTrimmed_trim (text : String) : IsTrimmed text (trim text) := by
  let rest := text.toList.dropWhile isWhiteSpace
  have hrest : rest.rdropWhile isWhiteSpace ++ rest.rtakeWhile isWhiteSpace = rest :=
    List.rdropWhile_append_rtakeWhile
  constructor
  case surrounded =>
    refine ⟨text.toList.takeWhile isWhiteSpace, rest.rtakeWhile isWhiteSpace, ?_,
      fun c hc => List.mem_takeWhile_imp hc, fun c hc => List.mem_rtakeWhile_imp hc⟩
    rw [toList_trim, List.append_assoc, hrest, List.takeWhile_append_dropWhile]
  case head =>
    intro c hc
    rw [toList_trim] at hc
    have hhead := List.mem_head?_append_of_mem_head? (t := rest.rtakeWhile isWhiteSpace) hc
    rw [hrest] at hhead
    exact eq_false_of_mem_head?_dropWhile hhead
  case last =>
    intro c hc
    rw [toList_trim, List.rdropWhile, List.getLast?_reverse] at hc
    exact eq_false_of_mem_head?_dropWhile hc

/-- There is one way to leave out the white space around a text. -/
theorem isTrimmed_iff {text trimmed : String} : IsTrimmed text trimmed ↔ trimmed = trim text := by
  constructor
  · rintro ⟨⟨front, back, htext, hfront, hback⟩, hhead, hlast⟩
    apply String.toList_injective
    rw [toList_trim, htext, List.append_assoc, List.dropWhile_append_of_pos hfront]
    cases htrimmed : trimmed.toList with
    | nil => rw [List.nil_append, List.dropWhile_eq_nil_iff.2 hback, List.rdropWhile_nil]
    | cons c cs =>
      rw [htrimmed] at hhead hlast
      have hc : isWhiteSpace c = false := hhead c rfl
      rw [List.cons_append, List.dropWhile_cons_of_neg (by simp [hc]), ← List.cons_append,
        List.rdropWhile, List.reverse_append, List.dropWhile_append_of_pos (by simpa using hback),
        ← List.rdropWhile, List.rdropWhile_eq_self_iff.2]
      intro hne
      simp [hlast _ (List.getLast?_eq_some_getLast hne)]
  · rintro rfl
    exact isTrimmed_trim text

namespace Command

/-! ### Texts in files -/

theorem decodeText_eq_ok_iff {bytes : ByteArray} {text : String} :
    decodeText bytes = .ok text ↔ bytes = text.toUTF8 := by
  unfold decodeText String.fromUTF8?
  by_cases h : bytes.IsValidUTF8
  · rw [dif_pos h]
    constructor
    · intro heq
      cases heq
      rfl
    · rintro rfl
      rfl
  · rw [dif_neg h]
    constructor
    · intro heq
      cases heq
    · rintro rfl
      exact absurd text.isValidUTF8 h

namespace World

variable {w : World} {o : Options} {path text input : String}

/-- Tells that there is a file at a path and that its content is a text, in UTF-8. -/
def Holds (w : World) (path text : String) : Prop := w.lookup path = .file (.ok text.toUTF8)

theorem readText_eq_ok_iff : w.readText path = .ok text ↔ w.Holds path text := by
  unfold readText Holds
  cases w.lookup path with
  | nothing reason => simp [Entry.text]
  | file content =>
    cases content with
    | error e => simp [Entry.text]
    | ok bytes =>
      rw [Entry.text, Entry.file.injEq, Except.ok.injEq, ← decodeText_eq_ok_iff]
      cases decodeText bytes <;> simp

theorem Holds.unique {text' : String} (h : w.Holds path text) (h' : w.Holds path text') :
    text = text' :=
  Except.ok.inj ((readText_eq_ok_iff.2 h).symm.trans (readText_eq_ok_iff.2 h'))

/-! ### The input -/

/-- Tells that a text is the input of a check that is not interactive. -/
inductive Supplies (w : World) (o : Options) : String → Prop
  /-- The file of the option comes first. -/
  | option {path input : String} (h : o.input = some path) (hfile : w.Holds path input) :
      Supplies w o input
  /-- The path argument counts if there is no such option. -/
  | argument {path input : String} (hoption : o.input = none) (h : o.path = some path)
      (hfile : w.Holds path input) : Supplies w o input
  /-- The standard input, if it is read, may name a file. -/
  | named {text name input : String} (hoption : o.input = none) (hpath : o.path = none)
      (hstdin : w.stdin = text.toUTF8) (htrim : IsTrimmed text name) (hne : name ≠ "")
      (h : (w.lookup name).isFile = true) (hfile : w.Holds name input) : Supplies w o input
  /-- Otherwise it is the input itself. -/
  | standard {text input : String} (hoption : o.input = none) (hpath : o.path = none)
      (hstdin : w.stdin = text.toUTF8) (htrim : IsTrimmed text input) (hne : input ≠ "")
      (h : (w.lookup input).isFile = false) : Supplies w o input

theorem resolve_eq_ok_iff :
    w.resolve text = .ok input ↔
      trim text ≠ "" ∧
        if (w.lookup (trim text)).isFile then w.Holds (trim text) input else input = trim text := by
  simp only [resolve, String.isEmpty_iff]
  split
  · next hempty => simp [hempty]
  · next hne =>
    rw [and_iff_right hne]
    split
    · exact readText_eq_ok_iff
    · rw [Except.ok.injEq, eq_comm]

theorem supplies_iff_of_path (h : (o.input <|> o.path) = some path) :
    w.Supplies o input ↔ w.Holds path input := by
  constructor
  · rintro (⟨hoption, hfile⟩ | ⟨hoption, hpath, hfile⟩ | ⟨hoption, hpath⟩ | ⟨hoption, hpath⟩)
    · rw [hoption] at h
      cases h
      exact hfile
    · rw [hoption, hpath] at h
      cases h
      exact hfile
    · rw [hoption, hpath] at h
      cases h
    · rw [hoption, hpath] at h
      cases h
  · intro hfile
    cases hoption : o.input with
    | some path' =>
      rw [hoption] at h
      cases h
      exact .option hoption hfile
    | none =>
      rw [hoption] at h
      exact .argument hoption h hfile

theorem supplies_iff_of_none (h : (o.input <|> o.path) = none) :
    w.Supplies o input ↔ ∃ text : String, w.stdin = text.toUTF8 ∧ w.resolve text = .ok input := by
  obtain ⟨hoption, hpath⟩ : o.input = none ∧ o.path = none := by
    cases hoption : o.input <;> simp_all
  simp only [resolve_eq_ok_iff]
  constructor
  · rintro (⟨hoption'⟩ | ⟨-, hpath'⟩ | ⟨-, -, hstdin, htrim, hne, hname, hfile⟩ |
      ⟨-, -, hstdin, htrim, hne, hname⟩)
    · cases hoption.symm.trans hoption'
    · cases hpath.symm.trans hpath'
    · obtain rfl := isTrimmed_iff.1 htrim
      exact ⟨_, hstdin, hne, by rwa [if_pos hname]⟩
    · obtain rfl := isTrimmed_iff.1 htrim
      exact ⟨_, hstdin, hne, by simp [hname]⟩
  · rintro ⟨text, hstdin, hne, hinput⟩
    split at hinput
    · next hname => exact .named hoption hpath hstdin (isTrimmed_trim text) hne hname hinput
    · next hname =>
      obtain rfl := hinput
      exact .standard hoption hpath hstdin (isTrimmed_trim text) hne (by simpa using hname)

/-- The checker reads the input that there is, from the source that comes first. -/
theorem readInput_eq_ok_iff : w.readInput o = .ok input ↔ w.Supplies o input := by
  unfold readInput
  cases hpath : o.input <|> o.path with
  | some path => rw [supplies_iff_of_path hpath, readText_eq_ok_iff]
  | none =>
    rw [supplies_iff_of_none hpath]
    simp only [← decodeText_eq_ok_iff]
    cases decodeText w.stdin <;> simp

end World

end Command

end Earley
